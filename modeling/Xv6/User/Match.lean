/-
# User.Match -- the regular expressions of grep

`match`, `matchhere` and `matchstar` of grep.c.  A string is the list of its characters, so
that the end of the list is the NUL that the source looks for.  The two functions call each
other with a shorter pattern or the rest of the text, which is why they terminate.

A pattern is read as an optional `^`, items, and an optional `$`; the items denote a product
of languages, a starred one its Kleene star.  `match_iff` says that the backtracking search
finds a match iff the text has one.
-/
import Mathlib.Computability.Language

namespace Xv6.User.Grep

set_option autoImplicit false

open scoped Computability

def STAR : UInt8 := 42

def DOT : UInt8 := 46

def CARET : UInt8 := 94

def DOLLAR : UInt8 := 36

/-! ## The matcher -/

mutual

/-- Search for `re` at the beginning of `text`. -/
def matchhere (re text : List UInt8) : Bool :=
  match re with
  | [] => true
  | c :: re =>
    if re.head? = some STAR then matchstar c re.tail text
    else if c = DOLLAR ∧ re = [] then text.isEmpty
    else
      match text with
      | [] => false
      | t :: text => if c = DOT ∨ c = t then matchhere re text else false
termination_by 2 * re.length + text.length + 1
decreasing_by
  all_goals simp only [List.length_cons, List.length_tail]
  all_goals omega

/-- Search for `c*re` at the beginning of `text`. -/
def matchstar (c : UInt8) (re text : List UInt8) : Bool :=
  if matchhere re text then true
  else
    match text with
    | [] => false
    | t :: text => if t = c ∨ c = DOT then matchstar c re text else false
termination_by 2 * re.length + text.length + 2
decreasing_by
  · omega
  · rw [List.length_cons]
    omega

end

theorem matchhere_cons (c : UInt8) (re text : List UInt8) : matchhere (c :: re) text =
    if re.head? = some STAR then matchstar c re.tail text
    else if c = DOLLAR ∧ re = [] then text.isEmpty
    else
      match text with
      | [] => false
      | t :: text => if c = DOT ∨ c = t then matchhere re text else false := by
  rw [matchhere.eq_def]

/-- The loop of `match`: also the empty rest of the text is looked at. -/
def matchFrom (re : List UInt8) : List UInt8 → Bool
  | [] => matchhere re []
  | t :: text => if matchhere re (t :: text) then true else matchFrom re text

/-- `match` of the source. -/
def matchText (re text : List UInt8) : Bool :=
  if re.head? = some CARET then matchhere re.tail text else matchFrom re text

/-! ## What a pattern means -/

inductive Item where
  | one (c : UInt8)
  | star (c : UInt8)
deriving DecidableEq

structure Pattern where
  start : Bool
  items : List Item
  stop : Bool

/-- The items of a pattern from left to right, and whether it ends in `$`. -/
def readItems : List UInt8 → List Item × Bool
  | [] => ([], false)
  | [c] => if c = DOLLAR then ([], true) else ([.one c], false)
  | c :: d :: re =>
    if d = STAR then
      let rest := readItems re
      (.star c :: rest.1, rest.2)
    else
      let rest := readItems (d :: re)
      (.one c :: rest.1, rest.2)

def readPattern (re : List UInt8) : Pattern :=
  if re.head? = some CARET then ⟨true, (readItems re.tail).1, (readItems re.tail).2⟩
    else ⟨false, (readItems re).1, (readItems re).2⟩

/-- The character `c` of a pattern stands for the character `t`. -/
def Stands (c t : UInt8) : Prop := c = DOT ∨ c = t

/-- The texts of one character that `c` stands for. -/
def symbol (c : UInt8) : Language UInt8 := { v | ∃ t, v = [t] ∧ Stands c t }

def Item.lang : Item → Language UInt8
  | .one c => symbol c
  | .star c => (symbol c)∗

/-- The language of a sequence of items. -/
def lang (items : List Item) : Language UInt8 := (items.map Item.lang).prod

/-! ## Unfolding a language by its first character -/

variable {c : UInt8} {text re : List UInt8}

theorem mem_symbol_mul {M : Language UInt8} {v : List UInt8} :
    v ∈ symbol c * M ↔ ∃ t v', v = t :: v' ∧ Stands c t ∧ v' ∈ M := by
  rw [Language.mem_mul]
  constructor
  · rintro ⟨_, ⟨t, rfl, stands⟩, v', rest, rfl⟩
    exact ⟨t, v', rfl, stands, rest⟩
  · rintro ⟨t, v', rfl, stands, rest⟩
    exact ⟨[t], ⟨t, rfl, stands⟩, v', rest, rfl⟩

theorem mem_star_mul {M : Language UInt8} {v : List UInt8} :
    v ∈ (symbol c)∗ * M ↔ v ∈ M ∨ ∃ t v', v = t :: v' ∧ Stands c t ∧ v' ∈ (symbol c)∗ * M := by
  rw [← mem_symbol_mul, ← Language.mem_add, ← mul_assoc]
  nth_rewrite 1 [← Language.one_add_self_mul_kstar_eq_kstar (symbol c)]
  rw [add_mul, one_mul]

/-- `text` starts with a match of the items, and ends there if the pattern has its `$`. -/
def Starts (p : List Item × Bool) (text : List UInt8) : Prop := ∃ v w, text = v ++ w ∧
    v ∈ lang p.1 ∧ (p.2 = true → w = [])

theorem starts_none (text : List UInt8) : Starts ([], false) text :=
  ⟨[], text, rfl, Language.mem_one .. |>.2 rfl, fun no => nomatch no⟩

theorem starts_end : Starts ([], true) text ↔ text = [] := by
  constructor
  · rintro ⟨v, w, rfl, empty, done⟩
    rw [done rfl, show v = [] from (Language.mem_one ..).1 empty, List.append_nil]
  · rintro rfl
    exact ⟨[], [], rfl, (Language.mem_one ..).2 rfl, fun _ => rfl⟩

theorem starts_one {l : List Item} {e : Bool} :
    Starts (.one c :: l, e) text ↔ ∃ t rest, text = t :: rest ∧ Stands c t ∧ Starts (l, e) rest := by
  constructor
  · rintro ⟨v, w, rfl, member, done⟩
    obtain ⟨t, v', rfl, stands, rest⟩ := mem_symbol_mul.1 member
    exact ⟨t, v' ++ w, rfl, stands, v', w, rfl, rest, done⟩
  · rintro ⟨t, _, rfl, stands, v', w, rfl, rest, done⟩
    exact ⟨t :: v', w, rfl, mem_symbol_mul.2 ⟨t, v', rfl, stands, rest⟩, done⟩

theorem starts_star {l : List Item} {e : Bool} :
    Starts (.star c :: l, e) text ↔
      Starts (l, e) text ∨ ∃ t rest, text = t :: rest ∧ Stands c t ∧ Starts (.star c :: l, e) rest := by
  constructor
  · rintro ⟨v, w, rfl, member, done⟩
    rcases mem_star_mul.1 member with none' | ⟨t, v', rfl, stands, rest⟩
    · exact .inl ⟨v, w, rfl, none', done⟩
    · exact .inr ⟨t, v' ++ w, rfl, stands, v', w, rfl, rest, done⟩
  · rintro (⟨v, w, rfl, member, done⟩ | ⟨t, _, rfl, stands, v', w, rfl, rest, done⟩)
    · exact ⟨v, w, rfl, mem_star_mul.2 (.inl member), done⟩
    · exact ⟨t :: v', w, rfl, mem_star_mul.2 (.inr ⟨t, v', rfl, stands, rest⟩), done⟩

/-! ## The matcher decides the language -/

/-- `matchstar`, from what `matchhere` does with the rest of the pattern. -/
theorem matchstar_iff (here : ∀ text, matchhere re text = true ↔ Starts (readItems re) text) :
    ∀ text, matchstar c re text = true ↔ Starts (.star c :: (readItems re).1, (readItems re).2) text := by
  intro text
  induction text with
  | nil =>
    rw [matchstar, starts_star, ← here]
    simp
  | cons t text ih =>
    rw [matchstar, starts_star, ← here]
    by_cases found : matchhere re (t :: text) = true
    · simp [found]
    · rw [if_neg found]
      by_cases stands : t = c ∨ c = DOT
      · have stands' : Stands c t := stands.symm.imp_right Eq.symm
        simp [stands, stands', found, ih]
      · have differs : ¬ Stands c t := fun yes => stands (yes.symm.imp_left Eq.symm)
        simp [stands, differs, found]

/-- A character that is neither starred nor the final `$` takes one character of the text. -/
theorem literal_iff (here : ∀ text, matchhere re text = true ↔ Starts (readItems re) text)
    (plain : re.head? ≠ some STAR) (inside : ¬ (c = DOLLAR ∧ re = [])) :
    matchhere (c :: re) text = true ↔ Starts (.one c :: (readItems re).1, (readItems re).2) text := by
  rw [matchhere_cons, if_neg plain, if_neg inside, starts_one]
  cases text with
  | nil => simp
  | cons t text =>
    by_cases stands : c = DOT ∨ c = t
    · have stands' : Stands c t := stands
      simp [stands, stands', here]
    · have differs : ¬ Stands c t := stands
      simp [stands, differs]

theorem matchhere_iff :
    ∀ {n : Nat} {re : List UInt8}, re.length ≤ n → ∀ text, matchhere re text = true ↔ Starts (readItems re) text := by
  have empty : ∀ text, matchhere [] text = true ↔ Starts (readItems []) text := fun text => by
    rw [matchhere, readItems]
    exact iff_of_true rfl (starts_none text)
  intro n
  induction n with
  | zero =>
    intro re short
    rw [List.length_eq_zero_iff.1 (Nat.le_zero.1 short)]
    exact empty
  | succ n ih =>
    intro re short text
    match re, short with
    | [], _ => exact empty text
    | [c], _ =>
      by_cases anchor : c = DOLLAR
      · rw [matchhere_cons, readItems, if_pos anchor, starts_end]
        simp [anchor]
      · rw [readItems, if_neg anchor]
        exact literal_iff empty (by simp) fun last => anchor last.1
    | c :: d :: re, short =>
      rw [List.length_cons, List.length_cons] at short
      by_cases starred : d = STAR
      · rw [matchhere_cons, readItems, if_pos starred, if_pos (by rw [starred]; rfl), List.tail_cons]
        exact matchstar_iff (ih (by omega)) text
      · rw [readItems, if_neg starred]
        exact literal_iff (ih (by rw [List.length_cons]; omega)) (by simpa using starred) fun last => nomatch last.2

theorem matchFrom_iff : ∀ text, matchFrom re text = true ↔ ∃ u rest, text = u ++ rest ∧ Starts (readItems re) rest := by
  intro text
  induction text with
  | nil =>
    rw [matchFrom, matchhere_iff (Nat.le_refl _)]
    constructor
    · exact fun found => ⟨[], [], rfl, found⟩
    · rintro ⟨u, rest, whole, found⟩
      rw [(List.append_eq_nil_iff.1 whole.symm).2] at found
      exact found
  | cons t text ih =>
    rw [matchFrom]
    constructor
    · intro found
      split at found
      · next here => exact ⟨[], t :: text, rfl, (matchhere_iff (Nat.le_refl _) _).1 here⟩
      · obtain ⟨u, rest, rfl, later⟩ := ih.1 found
        exact ⟨t :: u, rest, rfl, later⟩
    · rintro ⟨u, rest, whole, found⟩
      cases u with
      | nil =>
        rw [List.nil_append] at whole
        rw [whole, if_pos ((matchhere_iff (Nat.le_refl _) _).2 found)]
      | cons t' u =>
        obtain ⟨rfl, rfl⟩ := List.cons.inj whole
        split
        · rfl
        · exact ih.2 ⟨u, rest, rfl, found⟩

/-- **The matcher decides the pattern language.**  `match` finds a match iff the text has a part
in the language of the items, from the start of the text on if the pattern has its `^` and up to
the end if it has its `$`. -/
theorem match_iff (re text : List UInt8) : matchText re text = true ↔ ∃ u v w, text = u ++ v ++ w ∧
    v ∈ lang (readPattern re).items ∧
    ((readPattern re).start = true → u = []) ∧ ((readPattern re).stop = true → w = []) := by
  rw [matchText, readPattern]
  by_cases caret : re.head? = some CARET
  · rw [if_pos caret, if_pos caret, matchhere_iff (Nat.le_refl _)]
    constructor
    · rintro ⟨v, w, rfl, member, done⟩
      exact ⟨[], v, w, rfl, member, fun _ => rfl, done⟩
    · rintro ⟨u, v, w, rfl, member, first, done⟩
      rw [first rfl]
      exact ⟨v, w, rfl, member, done⟩
  · rw [if_neg caret, if_neg caret, matchFrom_iff]
    constructor
    · rintro ⟨u, _, rfl, v, w, rfl, member, done⟩
      exact ⟨u, v, w, (List.append_assoc ..).symm, member, fun no => (nomatch no), done⟩
    · rintro ⟨u, v, w, rfl, member, _, done⟩
      exact ⟨u, v ++ w, List.append_assoc .., v, w, rfl, member, done⟩

-- `$*^$`: a starred `$`, a `^` that is not the first character, and the `$` of the end
example : readItems [DOLLAR, STAR, CARET, DOLLAR] = ([.star DOLLAR, .one CARET], true) := by decide

end Xv6.User.Grep
