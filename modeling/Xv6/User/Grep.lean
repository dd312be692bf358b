/-
# User.Grep -- grep reads through a buffer

`grep` collects the input in a buffer of 1024 bytes, prints the lines in it that match, and
moves what follows the last newline to the front.  The buffer is bytes at offsets, with the
NULs and newlines written into it as in the source; `read` gives any number of bytes up to
what was asked for, as `want` says for each call.

`grep_output` is the outcome for every input without NULs and every `want`: the lines that
match, up to the first line of 1023 characters or more.  Such a line fills the buffer
without a newline; then `grep` asks for 0 bytes, takes the answer 0 for the end of the
input, and leaves out this line and everything after it.
-/
import Xv6.Theory.Bytes
import Xv6.Theory.Lines
import Xv6.User.Match
import Mathlib.Data.List.TakeWhile

namespace Xv6.User.Grep

set_option autoImplicit false

open Xv6.Theory Xv6.Theory.Bytes Xv6.Theory.Lines

/-! ## The code -/

def NL : UInt8 := 10

/-- `sizeof(buf)`. -/
abbrev BUF : Nat := 1024

/-- The string at `s`, of at most `n` characters. -/
def cstr (buf : Mem) : Nat → Nat → List UInt8
  | 0, _ => []
  | n + 1, s => if buf s = 0 then [] else buf s :: cstr buf n (s + 1)

/-- `strchr` in a string of at most `n` characters. -/
def strchr (buf : Mem) (c : UInt8) : Nat → Nat → Option Nat
  | 0, _ => none
  | n + 1, s => if buf s = 0 then none else if buf s = c then some s else strchr buf c n (s + 1)

/-- The inner loop, in at most the given number of turns: the buffer, `p` and what was printed. -/
def printLines (pattern : List UInt8) : Nat → Mem → Nat → Mem × Nat × List UInt8
  | 0, buf, p => (buf, p, [])
  | turns + 1, buf, p =>
    match strchr buf NL (BUF - p) p with
    | none => (buf, p, [])
    | some q =>
      let buf := Function.update buf q 0
      if matchText pattern (cstr buf (BUF - p) p) then
        let buf := Function.update buf q NL
        let rest := printLines pattern turns buf (q + 1)
        (rest.1, rest.2.1, (List.range (q + 1 - p)).map (fun j => buf (p + j)) ++ rest.2.2)
      else printLines pattern turns buf (q + 1)

/-- How many bytes `read` gives of a request for `size`. -/
def read (want size : Nat) (input : List UInt8) : Nat := min (max 1 want) (min size input.length)

variable {input : List UInt8} {n : Nat} {buf : Mem}

theorem read_drop {want size : Nat} (some' : read want size input ≠ 0) :
    (input.drop (read want size input)).length < input.length := by
  have le : read want size input ≤ input.length := by
    unfold read
    omega
  rw [List.length_drop]
  omega

/-- The outer loop: what is printed.  `want k` is how many bytes the `k`-th `read` would like to
give. -/
def grepFrom (pattern : List UInt8) (want : Nat → Nat) (k : Nat) (input : List UInt8) (buf : Mem)
    (m : Nat) : List UInt8 :=
  if _done : read (want k) (BUF - m - 1) input = 0 then []
  else
    let n := read (want k) (BUF - m - 1) input
    let buf := blit buf m n (fun j => input.getD j 0)
    let m := m + n
    let buf := Function.update buf m 0
    let swept := printLines pattern BUF buf 0
    let buf := swept.1
    let p := swept.2.1
    if 0 < m then swept.2.2 ++ grepFrom pattern want (k + 1) (input.drop n)
      (blit buf 0 (m - p) (fun j => buf (p + j))) (m - p)
    else swept.2.2 ++ grepFrom pattern want (k + 1) (input.drop n) buf m
termination_by input.length
decreasing_by
  all_goals exact read_drop _done

def grep (pattern : List UInt8) (want : Nat → Nat) (input : List UInt8) (buf : Mem) :
    List UInt8 := grepFrom pattern want 0 input buf 0

/-- What `grep` prints of the given lines. -/
def printed (pattern : List UInt8) (ls : List (List UInt8)) :
    List UInt8 := (ls.filter (matchText pattern)).flatMap fun line => line ++ [NL]

/-! ## Characters in the buffer -/

/-- The characters `l` stand in the buffer from `p` on. -/
def Holds (buf : Mem) : Nat → List UInt8 → Prop
  | _, [] => True
  | p, c :: l => buf p = c ∧ Holds buf (p + 1) l

section Buffer

variable {buf buf' : Mem} {p : Nat} {a l : List UInt8} {c : UInt8}

theorem holds_append : Holds buf p (a ++ l) ↔ Holds buf p a ∧ Holds buf (p + a.length) l := by
  induction a generalizing p with
  | nil => simp [Holds]
  | cons c a ih =>
    rw [List.cons_append, Holds, ih, Holds, List.length_cons, and_assoc, Nat.add_right_comm, Nat.add_assoc]

theorem Holds.congr (holds : Holds buf p l) (same : ∀ i, p ≤ i → i < p + l.length → buf' i = buf i) :
    Holds buf' p l := by
  induction l generalizing p with
  | nil => trivial
  | cons c l ih =>
    rw [List.length_cons] at same
    exact ⟨(same p (Nat.le_refl p) (by omega)).trans holds.1, ih holds.2 fun i low high => same i (by omega) (by omega)⟩

/-- One character is overwritten. -/
theorem Holds.put (holds : Holds buf p (a ++ c :: l)) (d : UInt8) :
    Holds (Function.update buf (p + a.length) d) p (a ++ d :: l) := by
  have parts := holds_append.1 holds
  refine holds_append.2 ⟨parts.1.congr fun i _ high => ?_, Function.update_self .., parts.2.2.congr fun i low _ => ?_⟩
  · exact Function.update_of_ne (by omega) _ _
  · exact Function.update_of_ne (by omega) _ _

/-- The characters at `p` as `write` prints them. -/
theorem Holds.bytes (holds : Holds buf p l) : (List.range l.length).map (fun j => buf (p + j)) = l := by
  induction l generalizing p with
  | nil => rfl
  | cons c l ih =>
    rw [List.length_cons, List.range_succ_eq_map, List.map_cons, List.map_map, Nat.add_zero, holds.1]
    have shift : (fun j => buf (p + j)) ∘ Nat.succ = fun j => buf (p + 1 + j) := by
      funext j
      rw [Function.comp, Nat.succ_eq_add_one, Nat.add_right_comm, Nat.add_assoc]
    rw [shift, ih holds.2]

theorem holds_of_bytes (same : ∀ j < l.length, buf (p + j) = l.getD j 0) : Holds buf p l := by
  induction l generalizing p with
  | nil => trivial
  | cons c l ih =>
    rw [List.length_cons] at same
    refine ⟨same 0 (Nat.succ_pos _), ih fun j below => ?_⟩
    rw [Nat.add_right_comm]
    exact same (j + 1) (Nat.succ_lt_succ below)

theorem strchr_found (holds : Holds buf p (a ++ c :: l)) (clean : 0 ∉ a) (none' : c ∉ a) (real : c ≠ 0)
    (enough : a.length < n) :
    strchr buf c n p = some (p + a.length) := by
  induction a generalizing p n with
  | nil =>
    obtain ⟨n, rfl⟩ := Nat.exists_eq_succ_of_ne_zero (Nat.ne_of_gt enough)
    have here : buf p = c := holds.1
    simp [strchr, here, real]
  | cons d a ih =>
    obtain ⟨n, rfl⟩ := Nat.exists_eq_succ_of_ne_zero (Nat.ne_of_gt (Nat.lt_of_le_of_lt (Nat.zero_le _) enough))
    rw [List.mem_cons, not_or] at clean none'
    have here : buf p = d := holds.1
    rw [strchr, here, if_neg (Ne.symm clean.1), if_neg (Ne.symm none'.1),
      ih holds.2 clean.2 none'.2 (Nat.lt_of_succ_lt_succ enough),
      List.length_cons, Nat.add_right_comm, Nat.add_assoc]

theorem strchr_missing (holds : Holds buf p (a ++ [0])) (none' : c ∉ a) : strchr buf c n p = none := by
  induction a generalizing p n with
  | nil =>
    have here : buf p = 0 := holds.1
    cases n with
    | zero => rfl
    | succ n => rw [strchr, if_pos here]
  | cons d a ih =>
    rw [List.mem_cons, not_or] at none'
    have here : buf p = d := holds.1
    cases n with
    | zero => rfl
    | succ n =>
      rw [strchr, here, if_neg (Ne.symm none'.1)]
      split
      · rfl
      · exact ih holds.2 none'.2

theorem cstr_eq (holds : Holds buf p (a ++ 0 :: l)) (clean : 0 ∉ a) (enough : a.length < n) : cstr buf n p = a := by
  induction a generalizing p n with
  | nil =>
    obtain ⟨n, rfl⟩ := Nat.exists_eq_succ_of_ne_zero (Nat.ne_of_gt enough)
    exact if_pos holds.1
  | cons d a ih =>
    obtain ⟨n, rfl⟩ := Nat.exists_eq_succ_of_ne_zero (Nat.ne_of_gt (Nat.lt_of_le_of_lt (Nat.zero_le _) enough))
    rw [List.mem_cons, not_or] at clean
    have here : buf p = d := holds.1
    rw [cstr, here, if_neg (Ne.symm clean.1), ih holds.2 clean.2 (Nat.lt_of_succ_lt_succ enough)]

end Buffer

/-! ## The inner loop -/

theorem printed_cons (pattern line : List UInt8) (ls : List (List UInt8)) :
    printed pattern (line :: ls) = (if matchText pattern line then line ++ [NL] else []) ++ printed pattern ls := by
  unfold printed
  rw [List.filter_cons]
  split <;> rfl

theorem printed_append (pattern : List UInt8) (ls ls' : List (List UInt8)) :
    printed pattern (ls ++ ls') = printed pattern ls ++ printed pattern ls' := by
  rw [printed, List.filter_append, List.flatMap_append, printed, printed]

/-- The inner loop prints the lines of `data` that match, and ends at what follows the last
newline. -/
theorem printLines_spec {pattern data : List UInt8} {buf : Mem} {turns p : Nat} (holds : Holds buf p (data ++ [0]))
    (clean : 0 ∉ data) (inside : p + data.length < BUF) (enough : data.length < turns) :
    ∃ buf', printLines pattern turns buf p =
        (buf', p + data.length - (lines NL data).2.length, printed pattern (lines NL data).1) ∧
      Holds buf' (p + data.length - (lines NL data).2.length) (lines NL data).2 := by
  induction data using lines_induct NL generalizing buf turns p with
  | rest a none' =>
    obtain ⟨turns, rfl⟩ := Nat.exists_eq_succ_of_ne_zero (Nat.ne_of_gt (Nat.lt_of_le_of_lt (Nat.zero_le _) enough))
    rw [lines_of_not_mem none', Nat.add_sub_cancel]
    refine ⟨buf, ?_, (holds_append.1 holds).1⟩
    rw [printLines, strchr_missing holds none']
    rfl
  | line a l none' ih =>
    obtain ⟨turns, rfl⟩ := Nat.exists_eq_succ_of_ne_zero (Nat.ne_of_gt (Nat.lt_of_le_of_lt (Nat.zero_le _) enough))
    rw [List.append_assoc, List.cons_append] at holds
    rw [List.mem_append, List.mem_cons, not_or, not_or] at clean
    rw [List.length_append, List.length_cons] at inside enough
    have found := strchr_found holds clean.1 none' (by decide) (n := BUF - p) (by omega)
    -- the newline is overwritten, the line before it and the lines after it stay
    have before := holds.put 0
    have line := cstr_eq before clean.1 (n := BUF - p) (by omega)
    have place : p + (a.length + (l.length + 1)) = p + a.length + 1 + l.length := by omega
    rw [lines_line none', List.length_append, List.length_cons, place, printed_cons, printLines, found]
    dsimp only
    rw [line]
    by_cases matches' : matchText pattern a = true
    · have back := holds.put NL
      obtain ⟨buf', ran, rest⟩ := @ih _ turns _ (holds_append.1 back).2.2 clean.2.2 (by omega) (by omega)
      have bytes := (holds_append.1 ((List.append_cons a NL _).symm ▸ back)).1.bytes
      rw [List.length_append, List.length_singleton] at bytes
      refine ⟨buf', ?_, rest⟩
      rw [if_pos matches', if_pos matches', Function.update_idem, ran, show p + a.length + 1 - p =
        a.length + 1 by omega, bytes]
    · obtain ⟨buf', ran, rest⟩ := @ih _ turns _ (holds_append.1 before).2.2 clean.2.2 (by omega) (by omega)
      refine ⟨buf', ?_, rest⟩
      rw [if_neg matches', if_neg matches', ran]
      rfl

/-! ## The outer loop -/

/-- The line and its newline fit in the buffer. -/
def fits (line : List UInt8) : Bool := decide (line.length < BUF - 1)

/-- `read` puts a piece of the input behind what the buffer holds. -/
theorem holds_read {carry : List UInt8} (holds : Holds buf 0 carry) (le : n ≤ input.length) :
    Holds (Function.update (blit buf carry.length n fun j => input.getD j 0) (carry.length + n) 0) 0 (carry ++
      input.take n ++ [0]) := by
  have size : (input.take n).length = n := List.length_take_of_le le
  refine holds_append.2 ⟨holds_append.2 ⟨holds.congr fun i _ high => ?_, holds_of_bytes fun j below => ?_⟩, ?_, trivial⟩
  · rw [Function.update_of_ne (by omega), blit_out (by omega)]
  · rw [size] at below
    rw [Function.update_of_ne (by omega), blit_in (by omega) (by omega)]
    simp [List.getD, below]
  · rw [List.length_append, size, Nat.zero_add, Function.update_self]

/-- `memmove` brings the rest to the front. -/
theorem holds_move {p : Nat} {rest : List UInt8} (holds : Holds buf p rest) :
    Holds (blit buf 0 rest.length fun j => buf (p + j)) 0 rest := by
  have bytes := holds.bytes
  refine holds_of_bytes fun j below => ?_
  rw [blit_in (by omega) (by omega)]
  conv_rhs => rw [← bytes]
  simp [List.getD, List.getElem?_range below]

/-- A full buffer without a newline: the first line does not fit. -/
theorem full_buffer {carry : List UInt8} (none' : NL ∉ carry) (full : BUF - 1 ≤ carry.length) :
    (lines NL (carry ++ input)).1.takeWhile fits = [] := by
  rw [lines_prepend none']
  rcases lines NL input with ⟨ls, rest⟩
  cases ls with
  | nil => rfl
  | cons first others =>
    rw [prepend, List.takeWhile_cons_of_neg]
    simp only [fits, decide_eq_true_eq, List.length_append]
    omega

theorem grepFrom_output {pattern : List UInt8} {want : Nat → Nat} : ∀ {size k : Nat} {input carry : List UInt8}
    {buf : Mem},
    input.length ≤ size → Holds buf 0 carry → carry.length < BUF → NL ∉ carry → 0 ∉ carry → 0 ∉ input →
    grepFrom pattern want k input buf carry.length =
    printed pattern ((lines NL (carry ++ input)).1.takeWhile fits) := by
  intro size
  induction size with
  | zero =>
    intro k input carry buf small _ _ none' _ _
    obtain rfl := List.length_eq_zero_iff.1 (Nat.le_zero.1 small)
    rw [grepFrom, dif_pos (by simp [read]), List.append_nil, lines_of_not_mem none']
    rfl
  | succ size ih =>
    intro k input carry buf small holds inside none' clean clean'
    rw [grepFrom]
    by_cases done : read (want k) (BUF - carry.length - 1) input = 0
    · rw [dif_pos done]
      by_cases empty : input = []
      · rw [empty, List.append_nil, lines_of_not_mem none']
        rfl
      · have some' := List.length_pos_iff.2 empty
        have full : BUF - 1 ≤ carry.length := by
          unfold read at done
          omega
        rw [full_buffer none' full]
        rfl
    · rw [dif_neg done]
      have bounds : read (want k) (BUF - carry.length - 1) input ≤ input.length ∧
        read (want k) (BUF - carry.length - 1) input ≤ BUF - carry.length - 1 := by
        unfold read
        omega
      generalize read (want k) (BUF - carry.length - 1) input = n at done bounds ⊢
      dsimp only
      have short : (carry ++ input.take n).length = carry.length + n := by
        rw [List.length_append, List.length_take_of_le bounds.1]
      have clean₁ : 0 ∉ carry ++ input.take n := fun mem =>
        (List.mem_append.1 mem).elim clean fun later => clean' (List.mem_of_mem_take later)
      have filled := holds_read holds bounds.1
      have whole : lines NL (carry ++ input) = lines NL (carry ++ input.take n ++ input.drop n) := by
        rw [List.append_assoc, List.take_append_drop]
      rw [whole, lines_append]
      generalize carry ++ input.take n = data at short clean₁ filled ⊢
      obtain ⟨buf', ran, left⟩ := @printLines_spec pattern data _ BUF 0 filled clean₁ (by omega) (by omega)
      have joined := @lines_join _ _ NL data
      have none₁ := @lines_rest _ _ NL data
      have all : ∀ line ∈ (lines NL data).1, fits line = true := fun line member => by
        have := length_line_lt member
        simp only [fits, decide_eq_true_eq]
        omega
      rw [ran, if_pos (by omega), List.takeWhile_append_of_pos all, printed_append]
      dsimp only
      generalize (lines NL data).1 = ls at joined ⊢
      generalize (lines NL data).2 = rest at joined left none₁ ⊢
      have size' : rest.length ≤ data.length := by
        rw [← joined, List.length_append]
        omega
      have gone : carry.length + n - (0 + data.length - rest.length) = rest.length := by omega
      refine congrArg (printed pattern ls ++ ·) ?_
      rw [gone]
      refine ih ?_ (holds_move left) (by omega) none₁ (fun mem => clean₁ ?_) fun mem =>
        clean' (List.mem_of_mem_drop mem)
      · rw [List.length_drop]
        omega
      · rw [← joined]
        exact List.mem_append_right _ mem

/-- What `grep` prints of any input without NULs, however `read` splits it: the lines that match,
up to the first that does not fit. -/
theorem grep_output (pattern : List UInt8) (want : Nat → Nat) (clean : 0 ∉ input) (buf : Mem) :
    grep pattern want input buf = printed pattern ((lines NL input).1.takeWhile fits) :=
  @grepFrom_output pattern want _ 0 input [] buf (Nat.le_refl _) trivial
    (by decide) List.not_mem_nil List.not_mem_nil clean

/-- **grep does not depend on buffering** while every line that matches comes before the first
line that does not fit in the buffer: for every input without NULs, and every way `read` may split
it, `grep` prints the lines that match, in order, if and only if no line from the first one of
more than 1022 characters on matches. -/
theorem grep_prints_matches (pattern : List UInt8) (want : Nat → Nat) (input : List UInt8)
    (buf : Mem) (clean : 0 ∉ input) :
    grep pattern want input buf = (((lines NL input).1.filter (matchText pattern)).flatMap fun line => line ++ [NL]) ↔
      ∀ line ∈ (lines NL input).1.dropWhile (fun line => line.length ≤ 1022), matchText pattern line = false := by
  have same : (fun line : List UInt8 => decide (line.length ≤ 1022)) = fits := funext fun line =>
    by simp [fits, BUF, Nat.lt_succ_iff]
  have whole := printed_append pattern ((lines NL input).1.takeWhile fits) ((lines NL input).1.dropWhile fits)
  rw [List.takeWhile_append_dropWhile] at whole
  rw [grep_output pattern want clean, same, ← printed, whole, List.self_eq_append_right]
  simp [printed]

theorem grep_prints_matches_sample : grep [97] (fun _ => 1) [98, NL, 97, NL, 97] (fun _ => 0) = [97, NL] := by
  rw [(grep_prints_matches [97] (fun _ => 1) [98, NL, 97, NL, 97] (fun _ => 0) (by decide)).2
    (by simp [lines, prepend, NL])]
  simp [lines, prepend, NL, matchText, matchFrom, matchhere_cons, matchhere, CARET, STAR, DOLLAR, DOT]

/-- A line of 1023 characters that matches: `grep` prints nothing, however `read` splits the
input. -/
theorem grep_drops_long_line : 0 ∉ List.replicate 1023 (97 : UInt8) ++ [NL] ∧
    lines NL (List.replicate 1023 97 ++ [NL]) = ([List.replicate 1023 97], []) ∧ matchText [97]
    (List.replicate 1023 97) = true ∧
    ∀ want buf, grep [97] want (List.replicate 1023 97 ++ [NL]) buf = [] := by
  have none' : NL ∉ List.replicate 1023 (97 : UInt8) := fun member =>
    absurd (List.eq_of_mem_replicate member) (by decide)
  have clean : 0 ∉ List.replicate 1023 (97 : UInt8) ++ [NL] := fun member => by
    rcases List.mem_append.1 member with first | last
    · exact absurd (List.eq_of_mem_replicate first) (by decide)
    · exact absurd (List.mem_singleton.1 last) (by decide)
  have first : ∀ l, matchText [97] (97 :: l) = true := fun l => by
    simp [matchText, matchFrom, matchhere_cons, matchhere, CARET, DOLLAR]
  have cut := lines_line none' []
  refine ⟨clean, cut, first (List.replicate 1022 97), fun want buf => ?_⟩
  rw [grep_output _ _ clean, cut, List.takeWhile_cons_of_neg]
  · rfl
  · rw [fits, List.length_replicate]
    decide

end Xv6.User.Grep
