import Mathlib.Data.List.Basic

/-! # Guarded runs of a deterministic step function

A system is a partial step function over events. A guard says which events may
be taken in which states; `Reaches` collects the states of every guarded run,
and an invariant is carried along such runs one step at a time.
-/

namespace FastPg.Transition

variable {σ ε : Type*}

/-- The states reached from `start` when every step meets `guard` in the state
    it is taken from. -/
inductive Reaches (step : σ → ε → Option σ) (guard : σ → ε → Prop) (start : σ) : σ → Prop where
  | refl : Reaches step guard start start
  | tail {s e s'} : Reaches step guard start s → guard s e → step s e = some s' →
      Reaches step guard start s'

/-- A guard that never refuses an event. -/
def free : σ → ε → Prop := fun _ _ => True

namespace Reaches

variable {step : σ → ε → Option σ} {guard weaker : σ → ε → Prop} {start s : σ}

theorem invariant {Inv : σ → Prop} (initial : Inv start)
    (preserved : ∀ s e s', Inv s → guard s e → step s e = some s' → Inv s')
    (h : Reaches step guard start s) : Inv s := by
  induction h with
  | refl => exact initial
  | tail _ allowed taken ih => exact preserved _ _ _ ih allowed taken

theorem mono (relax : ∀ s e, guard s e → weaker s e)
    (h : Reaches step guard start s) : Reaches step weaker start s := by
  induction h with
  | refl => exact .refl
  | tail _ allowed taken ih => exact .tail ih (relax _ _ allowed) taken

end Reaches

/-- Take a list of events in order; `none` as soon as one step is refused. -/
def run (step : σ → ε → Option σ) : σ → List ε → Option σ
  | s, [] => some s
  | s, e :: rest => (step s e).bind fun s' => run step s' rest

/-- Whether every event of the list meets the (decidable) guard where it is taken. -/
def admits (step : σ → ε → Option σ) (guard : σ → ε → Bool) : σ → List ε → Bool
  | _, [] => true
  | s, e :: rest => guard s e && (match step s e with
      | some s' => admits step guard s' rest
      | none => false)

/-- A checked run is a guarded one, where the check implies the guard in every
    state that meets a kept invariant. -/
theorem Reaches.of_run {step : σ → ε → Option σ} {guard : σ → ε → Prop}
    {check : σ → ε → Bool} {Inv : σ → Prop}
    (keeps : ∀ s e s', Inv s → check s e = true → step s e = some s' → Inv s')
    (sound : ∀ s e, Inv s → check s e = true → guard s e)
    {start s s' : σ} {events : List ε}
    (before : Reaches step guard start s) (inv : Inv s)
    (admitted : admits step check s events = true)
    (ran : run step s events = some s') : Reaches step guard start s' := by
  induction events generalizing s with
  | nil =>
    simp only [run, Option.some.injEq] at ran
    exact ran ▸ before
  | cons e rest ih =>
    simp only [admits, Bool.and_eq_true] at admitted
    cases taken : step s e with
    | none => simp [run, taken] at ran
    | some mid =>
      simp only [taken] at admitted
      simp only [run, taken, Option.bind_some] at ran
      have next : Reaches step guard start mid :=
        .tail before (sound _ _ inv admitted.1) taken
      exact ih next (keeps _ _ _ inv admitted.1 taken) admitted.2 ran

/-- A list of allowed events keeps what every allowed event keeps. -/
theorem run_keeps {step : σ → ε → Option σ} {Inv : σ → Prop} {allowed : ε → Prop}
    (keeps : ∀ s e s', Inv s → allowed e → step s e = some s' → Inv s')
    {s s' : σ} {events : List ε} (inv : Inv s) (all : ∀ e ∈ events, allowed e)
    (ran : run step s events = some s') : Inv s' := by
  induction events generalizing s with
  | nil =>
    cases ran
    exact inv
  | cons e rest ih =>
    obtain ⟨middle, taken, later⟩ := Option.bind_eq_some_iff.mp ran
    have next := keeps s e middle inv (all e (.head _)) taken
    exact ih next (fun e' mem => all e' (.tail _ mem)) later

/-! ## Values given out along a run -/

section Outputs

variable {α : Type*}

/-- What the steps of a run give out, in order, up to the first refused one. -/
def outputs (step : σ → ε → Option σ) (out : σ → ε → List α) : σ → List ε → List α
  | _, [] => []
  | s, e :: rest => match step s e with
      | some s' => out s e ++ outputs step out s' rest
      | none => []

/-- A step that gives out unused values, each once, and makes no value unused. -/
structure Dispenses (out : List α) (before after : α → Prop) : Prop where
  shrinks : ∀ a, after a → before a
  unused : ∀ a ∈ out, before a
  spent : ∀ a ∈ out, ¬ after a
  distinct : out.Nodup

/-- A run of such steps gives nothing out twice. -/
theorem outputs_nodup {step : σ → ε → Option σ} {out : σ → ε → List α} {unused : σ → α → Prop}
    {Inv : σ → Prop} {allowed : ε → Prop}
    (keeps : ∀ s e s', Inv s → allowed e → step s e = some s' → Inv s')
    (dispenses : ∀ s e s', Inv s → allowed e → step s e = some s' →
      Dispenses (out s e) (unused s) (unused s'))
    {s : σ} {events : List ε} (inv : Inv s) (all : ∀ e ∈ events, allowed e) :
    (outputs step out s events).Nodup ∧ ∀ a ∈ outputs step out s events, unused s a := by
  induction events generalizing s with
  | nil => exact ⟨List.nodup_nil, fun a mem => absurd mem List.not_mem_nil⟩
  | cons e rest ih =>
    have first := all e (List.mem_cons_self ..)
    rw [outputs]
    cases taken : step s e with
    | none => exact ⟨List.nodup_nil, fun a mem => absurd mem List.not_mem_nil⟩
    | some middle =>
      obtain ⟨distinct, unusedLater⟩ := ih (keeps s e middle inv first taken)
        fun e' mem => all e' (.tail _ mem)
      have here := dispenses s e middle inv first taken
      refine ⟨List.nodup_append.mpr ⟨here.distinct, distinct, ?_⟩, fun a mem => ?_⟩
      · intro a given b later same
        exact here.spent a given (unusedLater a (same ▸ later))
      · rcases List.mem_append.mp mem with given | later
        · exact here.unused a given
        · exact here.shrinks a (unusedLater a later)

end Outputs

end FastPg.Transition
