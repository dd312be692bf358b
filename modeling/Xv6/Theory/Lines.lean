/-
# Theory.Lines -- a list cut into terminated lines

`lines nl l` is the list of the lines of `l` that end in `nl`, without it, and the rest
after the last `nl`.  `lines_append` is what makes reading in pieces possible: the lines of
`a ++ b` are those of `a`, and then those of the rest of `a` with `b`.
-/
import Mathlib.Data.List.Basic

namespace Xv6.Theory.Lines

set_option autoImplicit false

variable {α : Type}

/-- `a` in front of the first line, or of the rest if there is no line. -/
def prepend (a : List α) : List (List α) × List α → List (List α) × List α
  | ([], rest) => ([], a ++ rest)
  | (first :: others, rest) => ((a ++ first) :: others, rest)

theorem prepend_nil (r : List (List α) × List α) : prepend [] r = r := by
  obtain ⟨ls, rest⟩ := r
  cases ls <;> rfl

theorem prepend_cons (c : α) (a : List α) (r : List (List α) × List α) :
    prepend [c] (prepend a r) = prepend (c :: a) r := by
  obtain ⟨ls, rest⟩ := r
  cases ls <;> rfl

variable [DecidableEq α] (nl : α)

/-- The terminated lines of a list, and what is left. -/
def lines : List α → List (List α) × List α
  | [] => ([], [])
  | c :: l => if c = nl then ([] :: (lines l).1, (lines l).2) else prepend [c] (lines l)

variable {nl}

theorem lines_sep (l : List α) : lines nl (nl :: l) = ([] :: (lines nl l).1, (lines nl l).2) := by
  rw [lines, if_pos rfl]

theorem lines_prepend {a : List α} (none' : nl ∉ a) (l : List α) : lines nl (a ++ l) = prepend a (lines nl l) := by
  induction a with
  | nil => exact (prepend_nil _).symm
  | cons c a ih =>
    rw [List.mem_cons, not_or] at none'
    rw [List.cons_append, lines, if_neg (Ne.symm none'.1), ih none'.2, prepend_cons]

theorem lines_of_not_mem {a : List α} (none' : nl ∉ a) : lines nl a = ([], a) := by
  have whole := lines_prepend none' []
  rw [List.append_nil] at whole
  rw [whole, lines, prepend, List.append_nil]

theorem lines_line {a : List α} (none' : nl ∉ a) (l : List α) :
    lines nl (a ++ nl :: l) = (a :: (lines nl l).1, (lines nl l).2) := by
  rw [lines_prepend none', lines_sep, prepend, List.append_nil]

/-- Every list is lines with their ends, and a rest. -/
theorem lines_induct (nl : α) {P : List α → Prop} (rest : ∀ a, nl ∉ a → P a)
    (line : ∀ a l, nl ∉ a → P l → P (a ++ nl :: l)) (l : List α) : P l := by
  induction n : l.length using Nat.strongRecOn generalizing l with
  | ind n ih =>
    by_cases last : nl ∈ l
    · obtain ⟨a, l', rfl, first⟩ := List.eq_append_cons_of_mem last
      refine line a l' first (ih l'.length ?_ l' rfl)
      rw [← n, List.length_append, List.length_cons]
      omega
    · exact rest l last

/-- The lines and the rest make up the list. -/
theorem lines_join (l : List α) : (lines nl l).1.flatMap (fun line => line ++ [nl]) ++ (lines nl l).2 = l := by
  induction l using lines_induct nl with
  | rest a none' => rw [lines_of_not_mem none', List.flatMap_nil, List.nil_append]
  | line a l none' ih =>
    rw [lines_line none', List.flatMap_cons, List.append_assoc, ih, List.append_assoc]
    rfl

theorem lines_rest (l : List α) : nl ∉ (lines nl l).2 := by
  induction l using lines_induct nl with
  | rest a none' => rw [lines_of_not_mem none']; exact none'
  | line a l none' ih => rw [lines_line none']; exact ih

/-- **Reading in pieces.** -/
theorem lines_append (a b : List α) :
    lines nl (a ++ b) = ((lines nl a).1 ++ (lines nl ((lines nl a).2 ++ b)).1, (lines nl ((lines nl a).2 ++ b)).2) := by
  induction a using lines_induct nl with
  | rest a none' => rw [lines_of_not_mem none', List.nil_append]
  | line a l none' ih => rw [List.append_assoc, List.cons_append, lines_line none',
    lines_line none', ih, List.cons_append]

theorem length_line_lt {l line : List α} (member : line ∈ (lines nl l).1) : line.length < l.length := by
  induction l using lines_induct nl with
  | rest a none' =>
    rw [lines_of_not_mem none'] at member
    cases member
  | line a l none' ih =>
    rw [lines_line none', List.mem_cons] at member
    rw [List.length_append, List.length_cons]
    rcases member with rfl | later
    · omega
    · have := ih later
      omega

end Xv6.Theory.Lines
