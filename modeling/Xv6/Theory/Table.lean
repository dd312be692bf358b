/-
# Theory.Table -- a finite map kept in reusable slots

A table is a list of slots, each empty or holding a key with its value.  A key is
found by a scan from the front, a new entry goes to the first empty slot or, if
there is none, to the end, and an entry is removed by emptying its slot.

`lookup_insert` and `lookup_erase` say what the two changes do to every key, and
`run_refines` follows a sequence of commands: as long as the keys differ, a table
answers like the map from keys to values it stands for.
-/
import Mathlib.Data.List.Nodup

namespace Xv6.Theory

set_option autoImplicit false

abbrev Table (κ ν : Type) := List (Option (κ × ν))

namespace Table

variable {κ ν : Type}

/-- The keys in the table, in the order of their slots. -/
def keys (t : Table κ ν) : List κ := t.filterMap (Option.map Prod.fst)

/-- The first empty slot; the number of slots if there is none. -/
def vacant : Table κ ν → Nat
  | [] => 0
  | none :: _ => 0
  | some _ :: rest => vacant rest + 1

/-- A new entry in the first empty slot, or after the last. -/
def insert (k : κ) (v : ν) : Table κ ν → Table κ ν
  | [] => [some (k, v)]
  | none :: rest => some (k, v) :: rest
  | some entry :: rest => some entry :: insert k v rest

/-- Slot `i` is emptied. -/
def erase (t : Table κ ν) (i : Nat) : Table κ ν := t.set i none

section Find

variable [DecidableEq κ]

/-- The scan for `k`, with the index of the slot it stands at. -/
def findFrom (k : κ) : Nat → Table κ ν → Option (Nat × ν)
  | _, [] => none
  | i, none :: rest => findFrom k (i + 1) rest
  | i, some (k', v) :: rest => if k = k' then some (i, v) else findFrom k (i + 1) rest

/-- The first slot that holds `k`, and its value. -/
def find (t : Table κ ν) (k : κ) : Option (Nat × ν) := findFrom k 0 t

def lookup (t : Table κ ν) (k : κ) : Option ν := (t.find k).map Prod.snd

end Find

/-! ## The slots -/

theorem vacant_le (t : Table κ ν) : t.vacant ≤ t.length := by
  induction t with
  | nil => exact Nat.le_refl 0
  | cons slot rest ih =>
    cases slot with
    | none => exact Nat.zero_le _
    | some entry => exact Nat.succ_le_succ ih

/-- A new entry replaces the first empty slot or comes after all slots. -/
theorem insert_eq (k : κ) (v : ν) (t : Table κ ν) :
    t.insert k v = if t.vacant < t.length then t.set t.vacant (some (k, v)) else t ++ [some (k, v)] := by
  induction t with
  | nil => rfl
  | cons slot rest ih =>
    cases slot with
    | none => rfl
    | some entry =>
      rw [insert, ih, vacant, List.length_cons]
      by_cases inside : vacant rest < rest.length
      · rw [if_pos inside, if_pos (Nat.succ_lt_succ inside), List.set_cons_succ]
      · rw [if_neg inside, if_neg fun no => inside (Nat.lt_of_succ_lt_succ no), List.cons_append]

variable {t : Table κ ν} {k : κ} {v : ν}

theorem mem_keys : k ∈ t.keys ↔ ∃ v, some (k, v) ∈ t := by
  unfold keys
  rw [List.mem_filterMap]
  constructor
  · rintro ⟨slot, mem, is⟩
    obtain ⟨⟨k', v⟩, rfl, rfl⟩ := Option.map_eq_some_iff.1 is
    exact ⟨v, mem⟩
  · rintro ⟨v, mem⟩
    exact ⟨_, mem, rfl⟩

theorem mem_keys_insert {j : κ} : j ∈ (t.insert k v).keys ↔ j = k ∨ j ∈ t.keys := by
  induction t with
  | nil => simp [insert, keys]
  | cons slot rest ih =>
    cases slot with
    | none => simp [insert, keys]
    | some entry =>
      have step : ∀ r : Table κ ν, keys (some entry :: r) = entry.1 :: keys r := fun _ => rfl
      rw [insert, step, step, List.mem_cons, List.mem_cons, ih]
      exact or_left_comm

theorem nodup_insert (v : ν) (distinct : t.keys.Nodup) (new : k ∉ t.keys) : (t.insert k v).keys.Nodup := by
  induction t with
  | nil => simp [insert, keys]
  | cons slot rest ih =>
    cases slot with
    | none => exact List.nodup_cons.2 ⟨new, distinct⟩
    | some entry =>
      have step : ∀ r : Table κ ν, keys (some entry :: r) = entry.1 :: keys r := fun _ => rfl
      rw [step, List.nodup_cons] at distinct
      rw [step, List.mem_cons, not_or] at new
      rw [insert, step, List.nodup_cons, mem_keys_insert, not_or]
      exact ⟨⟨Ne.symm new.1, distinct.1⟩, ih distinct.2 new.2⟩

theorem keys_erase (t : Table κ ν) (i : Nat) : (t.erase i).keys.Sublist t.keys := by
  induction t generalizing i with
  | nil => exact List.Sublist.refl _
  | cons slot rest ih =>
    cases i with
    | zero =>
      show (keys rest).Sublist (keys (slot :: rest))
      cases slot with
      | none => exact List.Sublist.refl _
      | some entry => exact List.sublist_cons_self ..
    | succ i =>
      cases slot with
      | none => exact ih i
      | some entry => exact (ih i).cons_cons entry.1

/-! ## Finding a key -/

section Laws

variable [DecidableEq κ]

theorem findFrom_none (i : Nat) : findFrom k i t = none ↔ k ∉ t.keys := by
  induction t generalizing i with
  | nil => simp [findFrom, keys]
  | cons slot rest ih =>
    cases slot with
    | none => exact ih (i + 1)
    | some entry =>
      have step : keys (some entry :: rest) = entry.1 :: keys rest := rfl
      rw [step, List.mem_cons, not_or, findFrom]
      by_cases here : k = entry.1
      · simp [here]
      · rw [if_neg here, ih]
        exact (and_iff_right here).symm

variable {i : Nat}

theorem findFrom_some {j : Nat} (found : findFrom k i t = some (j, v)) :
    i ≤ j ∧ t[j - i]? = some (some (k, v)) := by
  induction t generalizing i with
  | nil => cases found
  | cons slot rest ih =>
    have later : findFrom k (i + 1) rest = some (j, v) → i ≤ j ∧ (slot :: rest)[j - i]? = some (some (k, v)) := by
      intro found
      obtain ⟨after, at'⟩ := ih found
      refine ⟨by omega, ?_⟩
      rw [show j - i = j - (i + 1) + 1 by omega]
      exact at'
    cases slot with
    | none => exact later found
    | some entry =>
      rw [findFrom] at found
      split at found
      · next here =>
          obtain ⟨rfl, rfl⟩ := Prod.mk.inj (Option.some.inj found)
          refine ⟨Nat.le_refl _, ?_⟩
          rw [Nat.sub_self, here]
          rfl
      · exact later found

theorem find_none : t.find k = none ↔ k ∉ t.keys := findFrom_none 0

theorem find_some (found : t.find k = some (i, v)) : t[i]? = some (some (k, v)) :=
  (findFrom_some found).2

theorem lookup_none : t.lookup k = none ↔ k ∉ t.keys := by
  rw [lookup, Option.map_eq_none_iff, find_none]

/-- The value does not depend on where the scan starts to count. -/
theorem findFrom_value (k : κ) (t : Table κ ν) (i j : Nat) :
    (findFrom k i t).map Prod.snd = (findFrom k j t).map Prod.snd := by
  induction t generalizing i j with
  | nil => rfl
  | cons slot rest ih =>
    cases slot with
    | none => exact ih (i + 1) (j + 1)
    | some entry =>
      rw [findFrom, findFrom]
      split
      · rfl
      · exact ih (i + 1) (j + 1)

theorem lookup_none_cons (k : κ) (t : Table κ ν) : lookup (none :: t) k = lookup t k := findFrom_value k t 1 0

theorem lookup_some_cons (k : κ) (entry : κ × ν) (t : Table κ ν) :
    lookup (some entry :: t) k = if k = entry.1 then some entry.2 else lookup t k := by
  unfold lookup find
  rw [findFrom]
  split
  · rfl
  · exact findFrom_value k t 1 0

/-- **A new key** has its value, and the others keep theirs. -/
theorem lookup_insert (new : k ∉ t.keys) (j : κ) :
    (t.insert k v).lookup j = if j = k then some v else t.lookup j := by
  induction t with
  | nil => rw [insert, lookup_some_cons]
  | cons slot rest ih =>
    cases slot with
    | none => rw [insert, lookup_some_cons, lookup_none_cons]
    | some entry =>
      have step : keys (some entry :: rest) = entry.1 :: keys rest := rfl
      rw [step, List.mem_cons, not_or] at new
      rw [insert, lookup_some_cons, lookup_some_cons, ih new.2]
      by_cases here : j = entry.1
      · rw [if_pos here, if_pos here, if_neg]
        rintro rfl
        exact new.1 here
      · rw [if_neg here, if_neg here]

/-- **An emptied slot** takes its key away, and the others keep their values. -/
theorem lookup_erase (distinct : t.keys.Nodup) (there : t[i]? = some (some (k, v))) (j : κ) :
    (t.erase i).lookup j = if j = k then none else t.lookup j := by
  induction t generalizing i with
  | nil => cases there
  | cons slot rest ih =>
    cases i with
    | zero =>
      cases there
      have step : keys (some (k, v) :: rest) = k :: keys rest := rfl
      rw [step, List.nodup_cons] at distinct
      show lookup (none :: rest) j = _
      rw [lookup_none_cons, lookup_some_cons]
      by_cases here : j = k
      · rw [if_pos here, here]
        exact lookup_none.2 distinct.1
      · rw [if_neg here, if_neg here]
    | succ i =>
      cases slot with
      | none =>
        show lookup (none :: erase rest i) j = _
        rw [lookup_none_cons, lookup_none_cons]
        exact ih distinct there
      | some entry =>
        have step : keys (some entry :: rest) = entry.1 :: keys rest := rfl
        rw [step, List.nodup_cons] at distinct
        show lookup (some entry :: erase rest i) j = _
        rw [lookup_some_cons, lookup_some_cons, ih distinct.2 there]
        by_cases here : j = entry.1
        · rw [if_pos here, if_pos here, if_neg]
          rintro rfl
          rw [← here] at distinct
          exact distinct.1 (mem_keys.2 ⟨v, List.mem_of_getElem? there⟩)
        · rw [if_neg here, if_neg here]

end Laws

/-! ## Sequences of commands -/

inductive Cmd (κ ν : Type)
  | insert (k : κ) (v : ν)
  | erase (k : κ)
  | lookup (k : κ)

/-- What a command answers: a refusal, that it was done, or the value found. -/
inductive Answer (ν : Type)
  | refused
  | done
  | value (v : ν)
deriving DecidableEq

section Commands

variable [DecidableEq κ]

/-- A command on a map. -/
def Cmd.onMap (m : κ → Option ν) : Cmd κ ν → Answer ν × (κ → Option ν)
  | .insert k v => if (m k).isSome then (.refused, m) else (.done, Function.update m k (some v))
  | .erase k => if (m k).isSome then (.done, Function.update m k none) else (.refused, m)
  | .lookup k =>
    match m k with
    | none => (.refused, m)
    | some v => (.value v, m)

/-- A command on a table. -/
def Cmd.onTable (t : Table κ ν) : Cmd κ ν → Answer ν × Table κ ν
  | .insert k v =>
    match t.find k with
    | some _ => (.refused, t)
    | none => (.done, t.insert k v)
  | .erase k =>
    match t.find k with
    | some (i, _) => (.done, t.erase i)
    | none => (.refused, t)
  | .lookup k =>
    match t.find k with
    | some (_, v) => (.value v, t)
    | none => (.refused, t)

/-- The commands of a list one after another, with their answers. -/
def run {σ : Type} (step : σ → Cmd κ ν → Answer ν × σ) : List (Cmd κ ν) → σ → List (Answer ν) × σ
  | [], s => ([], s)
  | cmd :: rest, s =>
    let (answer, s) := step s cmd
    let (answers, s) := run step rest s
    (answer :: answers, s)

theorem onTable_nodup (distinct : t.keys.Nodup) (cmd : Cmd κ ν) : (cmd.onTable t).2.keys.Nodup := by
  cases cmd with
  | insert k v =>
    simp only [Cmd.onTable]
    cases found : t.find k with
    | some place => exact distinct
    | none => exact nodup_insert v distinct (find_none.1 found)
  | erase k =>
    simp only [Cmd.onTable]
    cases found : t.find k with
    | some place => exact (keys_erase t place.1).nodup distinct
    | none => exact distinct
  | lookup k =>
    simp only [Cmd.onTable]
    cases found : t.find k with
    | some place => exact distinct
    | none => exact distinct

theorem run_nodup (cmds : List (Cmd κ ν)) (distinct : t.keys.Nodup) :
    (run (fun t cmd => cmd.onTable t) cmds t).2.keys.Nodup := by
  induction cmds generalizing t with
  | nil => exact distinct
  | cons cmd rest ih => exact ih (onTable_nodup distinct cmd)

/-- One command on a table does what it does on the map. -/
theorem onTable_refines (distinct : t.keys.Nodup) (cmd : Cmd κ ν) :
    (cmd.onTable t).1 = (cmd.onMap t.lookup).1 ∧ (cmd.onTable t).2.lookup = (cmd.onMap t.lookup).2 := by
  have value : ∀ k, t.lookup k = (t.find k).map Prod.snd := fun _ => rfl
  cases cmd with
  | insert k v =>
    simp only [Cmd.onTable, Cmd.onMap, value]
    cases found : t.find k with
    | some place => exact ⟨rfl, rfl⟩
    | none =>
      refine ⟨rfl, ?_⟩
      funext j
      rw [lookup_insert (find_none.1 found)]
      exact (Function.update_apply ..).symm
  | erase k =>
    simp only [Cmd.onTable, Cmd.onMap, value]
    cases found : t.find k with
    | some place =>
      refine ⟨rfl, ?_⟩
      funext j
      rw [lookup_erase distinct (find_some found)]
      exact (Function.update_apply ..).symm
    | none => exact ⟨rfl, rfl⟩
  | lookup k =>
    simp only [Cmd.onTable, Cmd.onMap, value]
    cases found : t.find k with
    | some place => exact ⟨rfl, rfl⟩
    | none => exact ⟨rfl, rfl⟩

/-- **A sequence of commands** on a table answers like the same sequence on its map. -/
theorem run_refines (cmds : List (Cmd κ ν)) (distinct : t.keys.Nodup) :
    (run (fun t cmd => cmd.onTable t) cmds t).1 = (run (fun m cmd => cmd.onMap m) cmds t.lookup).1 ∧
      (run (fun t cmd => cmd.onTable t) cmds t).2.lookup = (run (fun m cmd => cmd.onMap m) cmds t.lookup).2 := by
  induction cmds generalizing t with
  | nil => exact ⟨rfl, rfl⟩
  | cons cmd rest ih =>
    obtain ⟨answer, after⟩ := onTable_refines distinct cmd
    obtain ⟨answers, last⟩ := ih (onTable_nodup distinct cmd)
    rw [after] at answers last
    exact ⟨by simp only [run, answer, answers], by simp only [run, last]⟩

end Commands

end Table

end Xv6.Theory
