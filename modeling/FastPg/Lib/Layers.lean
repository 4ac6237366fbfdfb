import Mathlib.Logic.Relation
import FastPg.Lib.Transition

/-! # Transactions as layers over shared data

Sessions share a base and keep a stack of layers of their own. A released layer
is merged into the one outside it, and the outermost one is published to the
base. What a layer holds, and how layers combine, is left open. Every step is
made of a few moves of one stack, so an invariant is shown for the moves only;
and two kinds of layers can be run side by side as one.
-/

namespace FastPg.Layers

open Transition

/-- How layers combine. -/
structure Layering (γ δ : Type*) where
  empty : δ
  merge : (parent child : δ) → δ
  publish : γ → δ → γ

/-- The layers of a session, innermost first. -/
structure Session (δ : Type*) where
  stack : List δ
  explicit : Bool
  deriving DecidableEq, Repr

structure System (γ δ : Type*) where
  base : γ
  sessions : Nat → Session δ

/-- The steps of a session; a write changes the innermost layer. -/
inductive Op (ω : Type*) where
  | write (change : ω)
  | beginExplicit
  | beginImplicit
  | commitExplicit
  | abortExplicit
  | commitImplicit
  | abortImplicit
  | beginSub
  | commitSub
  | abortSub
  deriving DecidableEq, Repr

section Steps

variable {γ δ ω : Type*} (layering : Layering γ δ)

/-- Merge a layer into the one outside it, and so on, and publish the last one. -/
def publishFrom (base : γ) : δ → List δ → γ
  | outermost, [] => layering.publish base outermost
  | child, parent :: rest => publishFrom base (layering.merge parent child) rest

def publishAll (base : γ) : List δ → γ
  | [] => base
  | top :: outer => publishFrom layering base top outer

/-- A transaction is started where there is none. -/
def ensured : List δ → List δ
  | [] => [layering.empty]
  | stack => stack

def written (change : δ → δ) (stack : List δ) : List δ :=
  match ensured layering stack with
  | [] => []
  | top :: outer => change top :: outer

/-- One step of a session, with what becomes of the base. -/
def Session.step (write : ω → δ → δ) (base : γ) (session : Session δ) : Op ω → γ × Session δ
  | .write change => (base, { session with stack := written layering (write change) session.stack })
  | .beginExplicit =>
    if session.explicit then (base, { session with stack := ensured layering session.stack })
    else (publishAll layering base session.stack, ⟨[layering.empty], true⟩)
  | .beginImplicit => (base, { session with stack := ensured layering session.stack })
  | .commitExplicit => (publishAll layering base session.stack, ⟨[], false⟩)
  | .abortExplicit => (base, ⟨[], false⟩)
  | .commitImplicit =>
    if session.explicit then (base, session)
    else (publishAll layering base session.stack, { session with stack := [] })
  | .abortImplicit => (base, if session.explicit then session else { session with stack := [] })
  | .beginSub =>
    (base, { session with stack := layering.empty :: ensured layering session.stack })
  | .commitSub =>
    match session.stack with
    | child :: parent :: rest =>
      (base, { session with stack := layering.merge parent child :: rest })
    | _ => (base, session)
  | .abortSub =>
    match session.stack with
    | _ :: parent :: rest => (base, { session with stack := parent :: rest })
    | _ => (base, session)

/-- One step of one session. -/
def step (write : ω → δ → δ) (system : System γ δ) (event : Nat × Op ω) : Option (System γ δ) :=
  let after := (system.sessions event.1).step layering write system.base event.2
  some ⟨after.1, fun other => if other = event.1 then after.2 else system.sessions other⟩

/-! ## Moves -/

/-- What can happen to the base and to one stack at a time. -/
inductive Move : γ × List δ → γ × List δ → Prop where
  | push {base : γ} {stack : List δ} : Move (base, stack) (base, layering.empty :: stack)
  | drop {base : γ} {top : δ} {outer : List δ} : Move (base, top :: outer) (base, outer)
  | merge {base : γ} {child parent : δ} {outer : List δ} :
      Move (base, child :: parent :: outer) (base, layering.merge parent child :: outer)
  | publish {base : γ} {outermost : δ} : Move (base, [outermost]) (layering.publish base outermost, [])

abbrev Moves : γ × List δ → γ × List δ → Prop := Relation.ReflTransGen (Move layering)

variable {layering}

theorem Moves.publishFrom (base : γ) (top : δ) (outer : List δ) :
    Moves layering (base, top :: outer) (publishFrom layering base top outer, []) := by
  induction outer generalizing top with
  | nil => exact .single .publish
  | cons parent rest ih => exact .head .merge (ih _)

theorem Moves.publishAll (base : γ) (stack : List δ) :
    Moves layering (base, stack) (publishAll layering base stack, []) := by
  cases stack with
  | nil => exact .refl
  | cons top outer => exact .publishFrom base top outer

theorem Moves.clear (base : γ) (stack : List δ) : Moves layering (base, stack) (base, []) := by
  induction stack with
  | nil => exact .refl
  | cons top outer ih => exact .head .drop ih

theorem Moves.ensured (base : γ) (stack : List δ) :
    Moves layering (base, stack) (base, ensured layering stack) := by
  cases stack with
  | nil => exact .single .push
  | cons top outer => exact .refl

/-- Apart from writes, a step is made of moves. -/
theorem Session.step_moves (write : ω → δ → δ) (base : γ) (session : Session δ) (op : Op ω)
    (other : ∀ change, op ≠ .write change) :
    Moves layering (base, session.stack)
      ((session.step layering write base op).1, (session.step layering write base op).2.stack) := by
  cases op with
  | write change => exact absurd rfl (other change)
  | beginExplicit =>
    simp only [Session.step]
    split
    · exact .ensured base _
    · exact .tail (Moves.publishAll base _) .push
  | beginImplicit => exact .ensured base _
  | commitExplicit => exact .publishAll base _
  | abortExplicit => exact .clear base _
  | commitImplicit =>
    simp only [Session.step]
    split
    · exact .refl
    · exact .publishAll base _
  | abortImplicit =>
    simp only [Session.step]
    split
    · exact .refl
    · exact .clear base _
  | beginSub => exact .tail (Moves.ensured base _) .push
  | commitSub =>
    simp only [Session.step]
    split
    next levels => exact levels ▸ .single .merge
    next => exact .refl
  | abortSub =>
    simp only [Session.step]
    split
    next levels => exact levels ▸ .single .drop
    next => exact .refl

end Steps

/-! ## Two kinds of layers side by side -/

section Product

variable {γ₁ γ₂ δ₁ δ₂ ω : Type*}

def Layering.prod (left : Layering γ₁ δ₁) (right : Layering γ₂ δ₂) :
    Layering (γ₁ × γ₂) (δ₁ × δ₂) where
  empty := (left.empty, right.empty)
  merge := fun parent child => (left.merge parent.1 child.1, right.merge parent.2 child.2)
  publish := fun base layer => (left.publish base.1 layer.1, right.publish base.2 layer.2)

def Session.fst (session : Session (δ₁ × δ₂)) : Session δ₁ :=
  ⟨session.stack.map Prod.fst, session.explicit⟩

/-- The first kind of layers alone. -/
def System.fst (system : System (γ₁ × γ₂) (δ₁ × δ₂)) : System γ₁ δ₁ :=
  ⟨system.base.1, fun sid => (system.sessions sid).fst⟩

end Product

end FastPg.Layers
