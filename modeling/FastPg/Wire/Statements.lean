import FastPg.Wire.Lexical

/-! # The splitter finds the ends of statements

Outside quotes and comments the splitter knows how many parentheses, bodies and
cases are open, and whether a `BEGIN` has just gone by. These stay what the
tokens say as long as each token is read as the lexer reads it, so that the
pieces it returns are the statements. Where it reads a token in another way
the ends it finds can be any.
-/

namespace FastPg.Wire

open SplitState List Option

/-! ## The splitter beside the lexer -/

/-- The splitter's depths against what is open: bodies and cases are counted
    apart, and there are no cases left when there are no bodies. -/
structure Tracks (stack : List Frame) (bodies cases : Nat) : Prop where
  total : bodies + cases = stack.countP (· ≠ .paren)
  grounded : bodies = 0 → cases = 0

def parens (stack : List Frame) : Nat := stack.countP (· = .paren)

variable {stack : List Frame} {bodies cases : Nat} {pending : Bool} {rest : Text}

section

variable (tracks : Tracks stack bodies cases)
include tracks

theorem Tracks.inBody_iff :
    inBody stack = true ↔ 0 < bodies := by
  have counted : inBody stack = true ↔ 0 < stack.countP (· ≠ .paren) := by
    rw [List.countP_pos_iff, inBody, List.any_eq_true]
  rw [counted, ← tracks.total]
  have := tracks.grounded
  omega

theorem Tracks.empty_iff :
    stack = [] ↔ parens stack = 0 ∧ bodies = 0 := by
  have lengths : parens stack + stack.countP (· ≠ .paren) = stack.length := by
    have := length_eq_countP_add_countP (p := fun frame : Frame => decide (frame = .paren)) (l := stack)
    simp only [parens]
    simpa using this.symm
  have total := tracks.total
  have grounded := tracks.grounded
  rw [← length_eq_zero_iff]
  omega

theorem takeWord_plain (count : Nat) {part : Text}
    (noAtomic : (pending && keywordEq part "atomic") = false)
    (noEnd : (inBody stack && (keywordEq part "case" || keywordEq part "end")) = false) :
    (outside count bodies cases pending).takeWord part =
      outside count bodies cases (keywordEq part "begin") := by
  have depth := tracks.inBody_iff
  unfold takeWord
  by_cases begins : keywordEq part "begin" = true
  · rw [if_pos begins, begins]
    rfl
  · rw [if_neg begins, if_neg (by rw [show (outside count bodies cases pending).pendingBegin = pending from rfl, noAtomic]; decide),
      Bool.eq_false_iff.mpr begins]
    by_cases deep : 0 < (outside count bodies cases pending).atomicBodyDepth
    · rw [depth.mpr deep, Bool.true_and, Bool.or_eq_false_iff] at noEnd
      rw [if_pos deep, noEnd.1, noEnd.2]
      rfl
    · rw [if_neg deep]
      rfl

theorem foldl_takeWord_plain (count : Nat) (parts : List Text) : ∀ {pending : Bool},
      plainParts (inBody stack) pending parts = true →
        parts.foldl takeWord (outside count bodies cases pending) =
          outside count bodies cases (pendingAfterParts pending parts) := by
  induction parts with
  | nil => exact fun _ => rfl
  | cons part parts ih =>
    intro pending plain
    simp only [plainParts, Bool.and_eq_true, Bool.not_eq_true'] at plain
    rw [foldl_cons, takeWord_plain tracks count plain.1.1 plain.1.2, ih plain.2]
    rfl

end

section Reading

variable {state : SplitState} (plain : state.Plain) {rest : Text} {body : Text}

include plain in
theorem reads_blank {blank : Blank} (fits : blank.fits rest = true)
    (readable : blank.readable rest = true) : Reads state state blank.text rest := by
  cases blank with
  | space c =>
    have space : c ∈ [' ', '\t', '\n', '\r', '\x0b', '\x0c'] := of_decide_eq_true fits
    refine reads_ordinary plain isSpace fits (by decide) ?_
    simp only [List.mem_cons, List.not_mem_nil, or_false] at space
    rcases space with same | same | same | same | same | same <;> rw [same] <;> decide
  | lineComment body ending =>
    simp only [Blank.fits, Bool.and_eq_true, List.all_eq_true] at fits
    have oneLine : '\n' ∉ body := fun inBody => absurd (fits.1 _ inBody) (by decide)
    have longer : '\n' ∉ body ++ ['\r'] := by simp [oneLine]
    cases ending with
    | feed => exact reads_lineComment plain oneLine rest
    | returnFeed => simpa [Blank.text, LineEnd.text] using reads_lineComment plain longer rest
    | carriage =>
      have atEnd : rest = [] := of_decide_eq_true readable
      rw [atEnd]
      exact reads_lastComment plain longer
    | none =>
      have atEnd : rest = [] := of_decide_eq_true fits.2
      rw [atEnd]
      simpa [Blank.text, LineEnd.text] using reads_lastComment plain oneLine
  | blockComment body => exact reads_blockComment plain fits rest

/-- What is readable before a text that is not empty is readable before any. -/
theorem Blank.readable_full {blank : Blank} {text : Text} (full : text ≠ [])
    (readable : blank.readable text = true) (rest : Text) : blank.readable rest = true := by
  unfold Blank.readable at readable ⊢
  split
  · simp [full] at readable
  · rfl

include plain in
theorem reads_blanks (gap : List Blank) : blanksFit rest gap = true →
    (∀ blank ∈ gap, ∀ rest, blank.readable rest = true) →
      Reads state state (blanksText gap) rest := by
  induction gap with
  | nil => exact fun _ _ piece => by simp [blanksText]
  | cons blank gap ih =>
    intro fits readable
    rw [blanksFit, Bool.and_eq_true] at fits
    have first := reads_blank plain fits.1 (readable blank mem_cons_self _)
    exact first.append (ih fits.2 fun blank inGap => readable blank (.tail _ inGap))

theorem doubled_cons {quote c : Char} (other : c ≠ quote) (pairs : doubled quote body = true) :
    doubled quote (c :: body) = true := by
  cases body with
  | nil => simp [doubled, other]
  | cons d body => rw [doubled, if_neg other, pairs]

/-- Without escaped quotes an escape string has its quotes in pairs. -/
theorem doubled_of_escape (body : Text) : escapeBody body = true → noEscapedQuote body = true →
    doubled '\'' body = true := by
  induction body using escapeBody.induct with
  | case1 => exact fun _ _ => rfl
  | case2 c =>
    intro single _
    rw [escapeBody, Bool.and_eq_true] at single
    exact single.2
  | case3 d body ih =>
    intro escape unescaped
    rw [escapeBody, if_pos rfl] at escape
    rw [noEscapedQuote, if_pos rfl, Bool.and_eq_true, decide_eq_true_eq] at unescaped
    exact doubled_cons (by decide) (doubled_cons unescaped.1 (ih escape unescaped.2))
  | case4 d body notBackslash ih =>
    intro escape unescaped
    rw [escapeBody, if_neg notBackslash, if_pos rfl, Bool.and_eq_true] at escape
    rw [noEscapedQuote, if_neg notBackslash, if_pos rfl] at unescaped
    rw [doubled, if_pos rfl, escape.1, ih escape.2 unescaped]
    rfl
  | case5 c d body notBackslash notQuote ih =>
    intro escape unescaped
    rw [escapeBody, if_neg notBackslash, if_neg notQuote] at escape
    rw [noEscapedQuote, if_neg notBackslash, if_neg notQuote] at unescaped
    rw [doubled, if_neg notQuote, ih escape unescaped]

theorem dollarTagEnd_tag (rest tag : Text) (ascii : tag.all (fun c => c.isAlphanum || c = '_') = true) :
    ∀ index, dollarTagEnd index (tag ++ '$' :: rest) = some (index + tag.length + 1) := by
  induction tag with
  | nil => exact fun index => by simp [dollarTagEnd]
  | cons c tag ih =>
    intro index
    rw [all_cons, Bool.and_eq_true] at ascii
    have notDollar : c ≠ '$' := fun same => absurd ascii.1 (by rw [same]; decide)
    rw [cons_append, dollarTagEnd, if_neg notDollar, if_pos ascii.1, ih ascii.2,
      length_cons]
    congr 1
    omega

include plain in
theorem reads_dollarString {tag : Text} (ascii : tag.all (fun c => c.isAlphanum || c = '_') = true)
    (first : noneBefore (dollarDelimiter tag) body = true) (rest : Text) :
    Reads state { state with pendingBegin := false }
      (dollarDelimiter tag ++ (body ++ dollarDelimiter tag)) rest := by
  obtain ⟨_, _, _, _, rfl⟩ := plain
  refine Reads.append (reads_round ?_) (reads_dollarBody outside_plain rest body first)
  have atTag : dollarQuoteEnd ('$' :: (tag ++ ['$'] ++ (body ++ dollarDelimiter tag ++ rest))) =
      some (1 + tag.length + 1) := by
    rw [append_assoc]
    exact dollarTagEnd_tag _ tag ascii 1
  have delimiter : ('$' :: (tag ++ ['$'] ++ (body ++ dollarDelimiter tag ++ rest))).take
      (1 + tag.length + 1) = dollarDelimiter tag :=
    @take_left' _ (dollarDelimiter tag) _ _ (by simp [dollarDelimiter]; omega)
  rw [advance_plain outside_plain, advancePlain]
  simp only [Char.reduceEq, if_false, false_and, if_true, atTag, delimiter]
  simp [outside, dollarDelimiter, Nat.add_comm]

include plain in
/-- A name is read as the words in it. -/
theorem reads_name {text : Text} (name : ∀ c ∈ text, nameContinue c = true)
    (ends : stops isIdentifierContinue rest = true) (noQuote : noDollarQuote 0 text = true) :
    Reads state ((wordParts 0 text).foldl takeWord state) text rest :=
  fun piece => splitFrom_name ends text name plain 0 piece (Nat.zero_le _) noQuote

include plain in
theorem reads_keyword {keyword : String} {text rest : Text} (spelled : keywordEq text keyword = true)
    (letters : keyword.toList.all Char.isAlpha = true) (some : keyword.toList ≠ [])
    (ends : stops nameContinue rest = true) : Reads state (state.takeWord text) text rest := by
  have isLetter := keyword_letters spelled letters
  have full : text ≠ [] := by
    rintro rfl
    exact some (of_decide_eq_true spelled).symm
  obtain ⟨oneWord, noQuote⟩ := wordParts_letters full isLetter
  have name : ∀ c ∈ text, nameContinue c = true :=
    fun c inText => by simp [nameContinue, nameStart, isLetter c inText]
  have read := reads_name plain name (stops_mono (fun _ => nameContinue_of_identifier) ends) noQuote
  rwa [oneWord] at read

include plain in
theorem reads_digits (digits : Text) :
    digits.all Char.isDigit = true → Reads state state digits rest := by
  induction digits with
  | nil => exact fun _ piece => by rw [nil_append, append_nil]
  | cons c digits ih =>
    intro all
    rw [all_cons, Bool.and_eq_true] at all
    have notStart : isIdentifierStart c = false := by
      rw [isIdentifierStart, not_alpha_of_digit all.1, Bool.false_or, decide_eq_false_iff_not]
      rintro rfl
      exact absurd all.1 (by decide)
    exact (reads_ordinary plain Char.isDigit all.1 (by decide) notStart).append (ih all.2)

theorem digit_of_not_start {c : Char} (number : isNumberChar c = true)
    (notStart : isIdentifierStart c = false) : c.isDigit = true := by
  rw [isIdentifierStart, Bool.or_eq_false_iff, decide_eq_false_iff_not] at notStart
  rw [isNumberChar, Bool.or_eq_true] at number
  rcases number with digit | letter
  · exact digit
  · have notUpper : c.isUpper = false := by
      have notAlpha := notStart.1
      rw [Char.isAlpha, Bool.or_eq_false_iff] at notAlpha
      exact notAlpha.1
    have isLetter := of_decide_eq_true letter
    rw [Char.toLower_eq_of_not_isUpper (Bool.eq_false_iff.mp notUpper)] at isLetter
    simp only [mem_cons, not_mem_nil, or_false] at isLetter
    rcases isLetter with same | same | same | same | same | same | same | same | same
    all_goals
      rw [same] at notStart
      exact absurd notStart (by decide)

theorem wordParts_nonempty {text : Text} (numbers : ∀ c ∈ text, isNumberChar c = true) :
    text.all Char.isDigit = false → wordParts 0 text ≠ [] := by
  induction text with
  | nil => exact fun notAll => by cases notAll
  | cons c text ih =>
    intro notAll
    rw [wordParts]
    split
    · exact cons_ne_nil _ _
    · rename_i notStart
      have digit := digit_of_not_start (numbers c (.head _)) (Bool.eq_false_iff.mpr notStart)
      rw [all_cons, digit, Bool.true_and] at notAll
      exact ih (fun d inText => numbers d (.tail _ inText)) notAll

include plain in
theorem reads_parameter {digits : Text} (all : digits.all Char.isDigit = true)
    (ends : stops isIdentifierContinue rest = true) :
    Reads state state ('$' :: digits) rest := by
  have noTag : ∀ index, dollarTagEnd index digits = none := by
    induction digits with
    | nil => exact fun _ => rfl
    | cons c digits ih =>
      intro index
      rw [all_cons, Bool.and_eq_true] at all
      have notDollar : c ≠ '$' := fun same => absurd all.1 (by rw [same]; decide)
      rw [dollarTagEnd, if_neg notDollar, ih all.2, ite_self]
  have first := reads_dollarSign plain (dollarTagEnd_append ends digits 1 (noTag 1))
  exact first.append (reads_digits plain digits all)

theorem dollarTagEnd_some (rest : Text) : ∀ {index length : Nat},
    dollarTagEnd index rest = some length →
      ∃ tag more, rest = tag ++ '$' :: more ∧ ∀ c ∈ tag, tagContinue c = true := by
  induction rest with
  | nil => exact fun found => by cases found
  | cons c rest ih =>
    intro index length found
    rw [dollarTagEnd] at found
    split at found
    · rename_i dollar
      exact ⟨[], rest, by rw [dollar]; rfl, fun _ inNil => by cases inNil⟩
    · split at found
      · rename_i inTag
        obtain ⟨tag, more, rfl, continued⟩ := ih found
        refine ⟨c :: tag, more, rfl, fun d inLonger => ?_⟩
        cases inLonger with
        | head =>
          simp only [Char.isAlphanum, Bool.or_eq_true] at inTag
          simp only [tagContinue, nameStart, Bool.or_eq_true]
          tauto
        | tail _ inShorter => exact continued d inShorter
      · cases found

/-- A dollar sign that opens no quote for the lexer opens none for the splitter. -/
theorem dollarTagEnd_of_not_opens (closed : opensDollar rest = false)
    (noDigit : stops Char.isDigit rest = true) (index : Nat) : dollarTagEnd index rest = none := by
  cases found : dollarTagEnd index rest with
  | none => rfl
  | some length =>
    obtain ⟨tag, more, rfl, continued⟩ := dollarTagEnd_some rest found
    have ended : stops tagContinue ('$' :: more) = true := by simp [stops, show tagContinue '$' = false by decide]
    have theTag : (tag ++ '$' :: more).takeWhile tagContinue = tag := by
      rw [takeWhile_append_stops ended, takeWhile_eq_self_iff]
      exact continued
    have notDigit : tag.head?.any Char.isDigit = false := by
      cases tag with
      | nil => rfl
      | cons c tag => simpa [stops] using noDigit
    have isIt : isTag tag = true := by
      rw [isTag, notDigit, all_eq_true.mpr continued]
      rfl
    rw [opensDollar, theTag, isIt] at closed
    simp at closed

include plain in
theorem reads_symbol {c : Char} (fits : (Token.symbol c).fits rest = true) :
    Reads state state [c] rest := by
  simp only [Token.fits, Bool.and_eq_true, Bool.not_eq_true', Bool.or_eq_false_iff,
    decide_eq_false_iff_not, Bool.or_eq_true, decide_eq_true_eq] at fits
  obtain ⟨⟨⟨⟨⟨-, notName⟩, ordinary⟩, noLine⟩, noBlock⟩, noDollar⟩ := fits
  by_cases dollar : c = '$'
  · subst dollar
    have closed := noDollar.resolve_left (by decide)
    exact reads_dollarSign plain (dollarTagEnd_of_not_opens closed.1 closed.2 1)
  · have notStart : isIdentifierStart c = false := by
      simp only [tagContinue, nameStart, Bool.or_eq_false_iff] at notName
      rw [isIdentifierStart, notName.1.1.1, notName.1.1.2]
      rfl
    refine reads_char plain ?_ notStart (fun dash => noLine.resolve_left (not_not.mpr dash))
      (fun slash => noBlock.resolve_left (not_not.mpr slash))
    simp only [mem_cons, not_mem_nil, or_false] at ordinary ⊢
    tauto

end Reading

/-! ## One token -/

variable {text : Text}

theorem keywordEq_other {text : Text} {keyword other : String} (spelled : keywordEq text keyword = true)
    (differ : keyword.toList ≠ other.toList) : keywordEq text other = false := by
  have same : text.map Char.toLower = keyword.toList := of_decide_eq_true spelled
  rw [keywordEq, same, decide_eq_false_iff_not]
  exact differ

theorem stops_identifier (ends : stops tagContinue rest = true)
    (noDollar : rest.head? ≠ some '$') : stops isIdentifierContinue rest = true := by
  cases rest with
  | nil => rfl
  | cons c rest =>
    have notTag : tagContinue c = false := by simpa [stops] using ends
    have notDollar : c ≠ '$' := fun same => noDollar (congrArg some same)
    simp only [tagContinue, nameStart, Bool.or_eq_false_iff] at notTag
    simp only [stops, head?_cons, any_some, isIdentifierContinue, Char.isAlphanum,
      notTag.1.1.1, notTag.1.1.2, notTag.2, notDollar]
    decide

theorem Tracks.push (tracks : Tracks stack bodies cases) :
    Tracks (.paren :: stack) bodies cases ∧ Tracks (.body :: stack) (bodies + 1) cases ∧
      (0 < bodies → Tracks (.caseOf :: stack) bodies (cases + 1)) := by
  have total := tracks.total
  have grounded := tracks.grounded
  refine ⟨⟨?_, grounded⟩, ⟨?_, fun none => absurd none (Nat.succ_ne_zero _)⟩,
    fun deep => ⟨?_, fun none => absurd none (Nat.pos_iff_ne_zero.mp deep)⟩⟩
  · rw [countP_cons_of_neg (by decide)]
    exact total
  · rw [countP_cons_of_pos (by decide)]
    omega
  · rw [countP_cons_of_pos (by decide)]
    omega

theorem parens_cons (frame : Frame) (stack : List Frame) :
    parens (frame :: stack) = parens stack + if frame = .paren then 1 else 0 := by
  simp [parens, countP_cons]

/-- The end of a body or of a case takes the splitter out of one of them. -/
theorem reads_end {frame : Frame} (tracks : Tracks (frame :: stack) bodies cases)
    (inner : frame ≠ .paren) (keyword : isKeyword "end" rest text = true) :
    ∃ bodiesAfter casesAfter, Tracks stack bodiesAfter casesAfter ∧
      Reads (outside (parens (frame :: stack)) bodies cases pending)
        (outside (parens stack) bodiesAfter casesAfter false) text rest := by
  rw [isKeyword, Bool.and_eq_true] at keyword
  have read := reads_keyword (@outside_plain (parens (frame :: stack)) bodies cases pending)
    keyword.1 (by decide) (by decide) keyword.2
  have notBegin := @keywordEq_other text "end" "begin" keyword.1 (by decide)
  have notAtomic := @keywordEq_other text "end" "atomic" keyword.1 (by decide)
  have notCase := @keywordEq_other text "end" "case" keyword.1 (by decide)
  have sameParens : parens (frame :: stack) = parens stack := by rw [parens_cons, if_neg inner]; rfl
  have total := tracks.total
  have grounded := tracks.grounded
  rw [countP_cons_of_pos (by simpa using inner)] at total
  have deep : 0 < bodies := by omega
  by_cases inCase : 0 < cases
  · refine ⟨bodies, cases - 1, ⟨by omega, by omega⟩, ?_⟩
    simpa [takeWord, notBegin, notAtomic, notCase, keyword.1, outside, deep, inCase, sameParens]
      using read
  · refine ⟨bodies - 1, cases, ⟨by omega, by omega⟩, ?_⟩
    simpa [takeWord, notBegin, notAtomic, notCase, keyword.1, outside, deep, inCase, sameParens]
      using read

theorem reads_caseStart (tracks : Tracks stack bodies cases) (inside : Frame.body ∈ stack)
    (keyword : isKeyword "case" rest text = true) :
    Tracks (.caseOf :: stack) bodies (cases + 1) ∧
      Reads (outside (parens stack) bodies cases pending)
        (outside (parens (.caseOf :: stack)) bodies (cases + 1) false) text rest := by
  rw [isKeyword, Bool.and_eq_true] at keyword
  have deep : 0 < bodies := by
    rw [← tracks.inBody_iff, inBody, List.any_eq_true]
    exact ⟨.body, inside, by decide⟩
  have read := reads_keyword (@outside_plain (parens stack) bodies cases pending) keyword.1
    (by decide) (by decide) keyword.2
  have notBegin := @keywordEq_other text "case" "begin" keyword.1 (by decide)
  have notAtomic := @keywordEq_other text "case" "atomic" keyword.1 (by decide)
  refine ⟨tracks.push.2.2 deep, ?_⟩
  simpa [takeWord, notBegin, notAtomic, keyword.1, outside, deep, parens_cons] using read

theorem blank_stops {blank : Blank} (fits : blank.fits rest = true) (more : Text) :
    stops nameContinue (blank.text ++ more) = true := by
  cases blank with
  | space c =>
    have space : c ∈ [' ', '\t', '\n', '\r', '\x0b', '\x0c'] := of_decide_eq_true fits
    simp only [mem_cons, not_mem_nil, or_false] at space
    rcases space with same | same | same | same | same | same <;> rw [same] <;> rfl
  | lineComment body ending => rfl
  | blockComment body => rfl

theorem reads_bodyStart {count : Nat} {opening atomic : Text}
    {gap : List Blank} (fits : (Token.bodyStart opening gap atomic).fits rest = true)
    (readable : ∀ blank ∈ gap, blank.readable atomic = true) :
    Reads (outside count bodies cases pending) (outside count (bodies + 1) cases false)
      (opening ++ (blanksText gap ++ atomic)) rest := by
  simp only [Token.fits, isKeyword, Bool.and_eq_true, decide_eq_true_eq] at fits
  obtain ⟨⟨⟨spelledBegin, someGap⟩, gapFits⟩, spelledAtomic, ends⟩ := fits
  have fullAtomic : atomic ≠ [] := by
    rintro rfl
    exact absurd spelledAtomic (by decide)
  have beginEnds : stops nameContinue (blanksText gap ++ atomic ++ rest) = true := by
    cases gap with
    | nil => exact absurd rfl someGap
    | cons blank gap =>
      rw [blanksFit, Bool.and_eq_true] at gapFits
      have start := blank_stops gapFits.1 (blanksText gap ++ atomic ++ rest)
      simpa [blanksText] using start
  have readBegin := reads_keyword (@outside_plain count bodies cases pending) spelledBegin
    (by decide) (by decide) beginEnds
  have readGap := reads_blanks (@outside_plain count bodies cases true) gap gapFits
    fun blank inGap => Blank.readable_full fullAtomic (readable blank inGap)
  have readAtomic := reads_keyword (@outside_plain count bodies cases true) spelledAtomic
    (by decide) (by decide) ends
  have notBegin := @keywordEq_other atomic "atomic" "begin" spelledAtomic (by decide)
  have takenBegin : (outside count bodies cases pending).takeWord opening =
      outside count bodies cases true := by
    simp [takeWord, spelledBegin, outside]
  have takenAtomic : (outside count bodies cases true).takeWord atomic =
      outside count (bodies + 1) cases false := by
    simp [takeWord, notBegin, spelledAtomic, outside]
  rw [takenBegin] at readBegin
  rw [takenAtomic] at readAtomic
  exact readBegin.append (readGap.append readAtomic)

theorem noDollarQuote_of_no_dollar (text : Text) : '$' ∉ text → ∀ more, noDollarQuote more text = true := by
  induction text with
  | nil => exact fun _ _ => by rw [noDollarQuote]
  | cons c text ih =>
    intro none more
    have noneRest : '$' ∉ text := fun inText => none (.tail _ inText)
    have other : c ≠ '$' := fun same => none (same ▸ mem_cons_self)
    cases more with
    | succ more => rw [noDollarQuote, ih noneRest]
    | zero =>
      rw [noDollarQuote]
      split
      · exact ih noneRest _
      · simp [dollarQuoteEnd, other, ih noneRest]

theorem plainParts_of_none (inside : Bool) (parts : List Text)
    (none : ∀ part ∈ parts, keywordEq part "atomic" = false ∧ keywordEq part "case" = false ∧
      keywordEq part "end" = false) : ∀ pending, plainParts inside pending parts = true := by
  induction parts with
  | nil => exact fun _ => rfl
  | cons part parts ih =>
    intro pending
    obtain ⟨notAtomic, notCase, notEnd⟩ := none part mem_cons_self
    rw [plainParts, notAtomic, notCase, notEnd,
      ih fun part inParts => none part (.tail _ inParts)]
    simp

theorem pendingAfterParts_of_none (parts : List Text)
    (none : ∀ part ∈ parts, keywordEq part "begin" = false) (some : parts ≠ []) (pending : Bool) :
    pendingAfterParts pending parts = false := by
  obtain ⟨before, last, rfl⟩ := (eq_nil_or_concat' parts).resolve_left some
  simp [pendingAfterParts, none last (by simp)]

/-- A number is read as digits, or as digits and a word that is no keyword. -/
theorem reads_number (tracks : Tracks stack bodies cases)
    (fits : (Token.number text).fits rest = true)
    (readable : (Token.number text).readable rest = true) :
    Reads (outside (parens stack) bodies cases pending)
      (outside (parens stack) bodies cases (text.all Char.isDigit && pending)) text rest := by
  simp only [Token.fits, Bool.and_eq_true, List.all_eq_true] at fits
  obtain ⟨⟨-, numbers⟩, ends⟩ := fits
  cases digits : text.all Char.isDigit with
  | true => exact reads_digits outside_plain text digits
  | false =>
    rw [Token.readable, digits, Bool.false_or, decide_eq_true_eq] at readable
    have name : ∀ c ∈ text, nameContinue c = true := by
      intro c inText
      by_cases starts : isIdentifierStart c = true
      · rw [isIdentifierStart, Bool.or_eq_true] at starts
        simp only [nameContinue, nameStart, Bool.or_eq_true]
        tauto
      · have digit := digit_of_not_start (numbers c inText) (Bool.eq_false_iff.mpr starts)
        simp [nameContinue, digit]
    have noDollar : '$' ∉ text := fun inText => absurd (numbers _ inText) (by decide)
    have read := reads_name (@outside_plain (parens stack) bodies cases pending) name
      (stops_identifier ends readable) (noDollarQuote_of_no_dollar text noDollar 0)
    have noKeyword : ∀ part ∈ wordParts 0 text, ∀ keyword : String,
        keyword.toList.any (fun c => !isNumberChar c) = true → keywordEq part keyword = false :=
      fun part inParts keyword foreign =>
        keywordEq_number (fun c inPart => numbers c (mem_wordParts text 0 inParts c inPart)) foreign
    have plain := plainParts_of_none (inBody stack) (wordParts 0 text)
      (fun part inParts => ⟨noKeyword part inParts "atomic" (by decide),
        noKeyword part inParts "case" (by decide), noKeyword part inParts "end" (by decide)⟩) pending
    rw [foldl_takeWord_plain tracks (parens stack) _ plain, pendingAfterParts_of_none _
      (fun part inParts => noKeyword part inParts "begin" (by decide))
      (wordParts_nonempty numbers digits)] at read
    exact read

theorem pop_eq {frame : Frame} {after : List Frame}
    (popped : (if stack.head? = some frame then some stack.tail else none) = some after) :
    stack = frame :: after := by
  cases stack <;> grind

/-- The splitter passes over a token, and its depths and its memory of a
    `BEGIN` stay what the tokens say. -/
theorem reads_token {after : List Frame} {token : Token} (tracks : Tracks stack bodies cases) (fits : token.fits rest = true)
    (readable : token.readable rest = true) (plain : token.plain stack pending = true)
    (nest : token.nest stack = some after) (goesOn : ¬(token = .semicolon ∧ stack = [])) :
    ∃ bodiesAfter casesAfter, Tracks after bodiesAfter casesAfter ∧
      Reads (outside (parens stack) bodies cases pending)
        (outside (parens after) bodiesAfter casesAfter (token.pendingAfter stack pending))
        token.text rest := by
  cases token with
  | blank inner =>
    cases nest
    exact ⟨bodies, cases, tracks, reads_blank outside_plain fits readable⟩
  | string body =>
    cases nest
    simp only [Token.fits, Bool.and_eq_true, decide_eq_true_eq] at fits
    exact ⟨bodies, cases, tracks, reads_string outside_plain fits.1 fits.2⟩
  | escapeString letter body =>
    cases nest
    simp only [Token.fits, Bool.and_eq_true, decide_eq_true_eq] at fits
    have spelled : keywordEq [letter] "e" = true := by simp [keywordEq, fits.1.1]
    have readLetter := @reads_keyword _ (@outside_plain (parens stack) bodies cases pending) "e"
      [letter] ('\'' :: (body ++ ['\'']) ++ rest) spelled (by decide) (by decide) (by rfl)
    rw [takeWord_plain tracks (parens stack)
      (by rw [@keywordEq_other [letter] "e" "atomic" spelled (by decide), Bool.and_false])
      (by rw [@keywordEq_other [letter] "e" "case" spelled (by decide),
        @keywordEq_other [letter] "e" "end" spelled (by decide), Bool.or_self, Bool.and_false]),
      @keywordEq_other [letter] "e" "begin" spelled (by decide)] at readLetter
    have pairs := doubled_of_escape body fits.1.2 readable
    exact ⟨bodies, cases, tracks, readLetter.append (reads_string outside_plain pairs fits.2)⟩
  | escapeContinued body =>
    cases nest
    simp only [Token.fits, Bool.and_eq_true, decide_eq_true_eq] at fits
    exact ⟨bodies, cases, tracks,
      reads_string outside_plain (doubled_of_escape body fits.1 readable) fits.2⟩
  | quotedName body =>
    cases nest
    simp only [Token.fits, Bool.and_eq_true, decide_eq_true_eq] at fits
    exact ⟨bodies, cases, tracks, reads_quotedName outside_plain fits.1.2 fits.2⟩
  | dollarString tag body =>
    cases nest
    simp only [Token.fits, Bool.and_eq_true] at fits
    exact ⟨bodies, cases, tracks, reads_dollarString outside_plain readable fits.2 rest⟩
  | word text =>
    cases nest
    simp only [Token.fits, Bool.and_eq_true, isName, List.all_eq_true] at fits
    have read := reads_name (@outside_plain (parens stack) bodies cases pending) fits.1.1.2
      (stops_mono (fun _ => nameContinue_of_identifier) fits.1.2) readable
    rw [foldl_takeWord_plain tracks (parens stack) _ plain] at read
    exact ⟨bodies, cases, tracks, read⟩
  | number text =>
    cases nest
    exact ⟨bodies, cases, tracks, reads_number tracks fits readable⟩
  | parameter digits =>
    cases nest
    simp only [Token.fits, Bool.and_eq_true] at fits
    have ends := stops_identifier fits.2 (of_decide_eq_true readable)
    exact ⟨bodies, cases, tracks, reads_parameter outside_plain fits.1.2 ends⟩
  | symbol c =>
    cases nest
    exact ⟨bodies, cases, tracks, reads_symbol outside_plain fits⟩
  | openParen =>
    cases nest
    refine ⟨bodies, cases, tracks.push.1, reads_round ?_⟩
    rw [parens_cons, if_pos rfl]
    rfl
  | closeParen =>
    obtain rfl := pop_eq nest
    have total := tracks.total
    rw [List.countP_cons_of_neg (by decide)] at total
    refine ⟨bodies, cases, ⟨total, tracks.grounded⟩, reads_round ?_⟩
    rw [parens_cons, if_pos rfl]
    rfl
  | semicolon =>
    cases nest
    have opened : stack ≠ [] := fun none => goesOn ⟨rfl, none⟩
    have deep : ¬(parens stack = 0 ∧ bodies = 0) := fun none => opened (tracks.empty_iff.mpr none)
    have memory : Token.pendingAfter stack pending .semicolon = (decide (stack = []) && pending) := rfl
    rw [memory, decide_eq_false opened, Bool.false_and]
    exact ⟨bodies, cases, tracks, reads_innerSemicolon outside_plain deep rest⟩
  | bodyStart opening gap atomic =>
    cases nest
    refine ⟨bodies + 1, cases, tracks.push.2.1, ?_⟩
    rw [parens_cons, if_neg (by decide)]
    exact reads_bodyStart fits (List.all_eq_true.mp readable)
  | bodyEnd text =>
    obtain rfl := pop_eq nest
    exact reads_end tracks (by decide) fits
  | caseStart text =>
    rw [Token.nest, Option.ite_none_right_eq_some, Option.some.injEq] at nest
    obtain ⟨inside, rfl⟩ := nest
    exact ⟨bodies, cases + 1, reads_caseStart tracks inside fits⟩
  | caseEnd text =>
    obtain rfl := pop_eq nest
    exact reads_end tracks (by decide) fits

theorem splitFrom_tokens (tokens : List Token) : ∀ {stack : List Frame} {bodies cases : Nat}
    {pending : Bool} (piece : Text), Tracks stack bodies cases → wellFormed stack tokens = true →
      readableFrom stack pending tokens = true →
        (outside (parens stack) bodies cases pending).splitFrom 0 piece (textOf tokens) =
          statementsFrom stack piece tokens := by
  induction tokens with
  | nil => exact fun _ _ _ _ => rfl
  | cons token rest ih =>
    intro stack bodies cases pending piece tracks formed readable
    rw [wellFormed, Bool.and_eq_true] at formed
    simp only [readableFrom, Bool.and_eq_true] at readable
    obtain ⟨fits, nested⟩ := formed
    obtain ⟨⟨readableHere, plain⟩, readableRest⟩ := readable
    rw [statementsFrom]
    by_cases atEnd : token = .semicolon ∧ stack = []
    · obtain ⟨rfl, rfl⟩ := atEnd
      have depths := tracks.empty_iff.mp rfl
      have whole : textOf (Token.semicolon :: rest) = ';' :: textOf rest := rfl
      have round : (outside (parens []) bodies cases pending).advance ';' (textOf rest) =
          { state := outside (parens []) bodies cases pending, ends := true } := by
        rw [advance_plain outside_plain, advancePlain]
        simp [outside, depths]
      have notBlank : isBlank (piece ++ [';']) = false := by
        rw [isBlank, all_append]
        simp [isWhitespace]
      have next := ih [] tracks nested readableRest
      rw [whole, splitFrom, round]
      simp only [and_self, if_true, notBlank, Bool.false_eq_true, if_false]
      exact congrArg ((piece ++ [';']) :: ·) next
    · rw [if_neg atEnd]
      cases nest : token.nest stack with
      | none =>
        rw [nest] at nested
        cases nested
      | some after =>
        rw [nest] at nested readableRest
        obtain ⟨bodiesAfter, casesAfter, tracksAfter, reads⟩ :=
          reads_token tracks fits readableHere plain nest atEnd
        have whole : textOf (token :: rest) = token.text ++ textOf rest := by simp [textOf]
        rw [whole, reads, ih _ tracksAfter nested readableRest]
        rfl

theorem splitSimpleQueryStatements_statements (tokens : List Token)
    (formed : wellFormed [] tokens = true) (readable : readableFrom [] false tokens = true) :
    splitSimpleQueryStatements (textOf tokens) = statements tokens ∧
      ∃ blank, isBlank blank = true ∧ (statements tokens).flatten ++ blank = textOf tokens := by
  have split : splitSimpleQueryStatements (textOf tokens) = statements tokens :=
    splitFrom_tokens tokens [] ⟨rfl, fun _ => rfl⟩ formed readable
  obtain ⟨blank, isBlank, whole⟩ := splitFrom_flatten (textOf tokens) {} 0 []
  exact ⟨split, blank, isBlank, split ▸ whole⟩

/-- The query `begin atomic a;end;'b;'` and a space. -/
def bodyTokens : List Token :=
  [.bodyStart "begin".toList [.space ' '] "atomic".toList, .blank (.space ' '), .word ['a'],
    .semicolon, .bodyEnd "end".toList, .semicolon, .string ['b', ';'], .blank (.space ' ')]

theorem splitSimpleQueryStatements_body :
    splitSimpleQueryStatements (textOf bodyTokens) = statements bodyTokens ∧
      ∃ blank, isBlank blank = true ∧ (statements bodyTokens).flatten ++ blank = textOf bodyTokens :=
  splitSimpleQueryStatements_statements bodyTokens (by decide) (by decide)

/-- Queries that are cut in the wrong places: an escaped quote, a tag outside
    ASCII, a comment up to a carriage return, a parameter, a name and a number
    before a dollar sign, and keywords of bodies that are names. -/
def misread : List (List Token) :=
  [[.escapeString 'E' ['\\', '\''], .semicolon, .word ['b']],
    [.dollarString ['é'] [';']],
    [.blank (.lineComment [] .carriage), .word ['a'], .semicolon, .word ['b']],
    [.parameter ['1'], .parameter ['2'], .semicolon, .word ['b']],
    [.word ['é', '$', 'a', '$'], .semicolon, .word ['b']],
    [.number ['1', 'e', '5'], .dollarString [] [';']],
    [.word "begin".toList, .symbol ',', .word "atomic".toList, .semicolon, .word ['b']],
    [.bodyStart "begin".toList [.space ' '] "atomic".toList, .symbol '.', .word "end".toList,
      .semicolon, .bodyEnd "end".toList, .semicolon, .word ['b']]]

theorem splitSimpleQueryStatements_misread :
    misread.all (fun tokens => wellFormed [] tokens &&
      splitSimpleQueryStatements (textOf tokens) ≠ statements tokens) = true := by
  decide

end FastPg.Wire
