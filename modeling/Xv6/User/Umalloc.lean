/-
# User.Umalloc -- the heap allocator of the user library

`malloc`, `free` and `morecore` of umalloc.c over byte addresses.  Memory is kept as the
headers that stand in it, `sbrk` is the kernel's answer to each call, and a loop of the
source is a recursion with a budget of turns: `Ends` says that every large enough budget
gives the same answer, so a call that ends is a call whose loops stop.

`Shape` is what the allocator is for: a circular list of the free blocks in address order,
no two of them touching, which together with the blocks in use make up what `sbrk` granted.
-/
import Xv6.Theory.Extents
import Mathlib.Data.List.Chain

namespace Xv6.User.Umalloc

set_option autoImplicit false

open Xv6.Theory Extent
open Function (update)
open Function (update_of_ne update_self)

/-! ## Loops with a budget -/

section Ends

variable {α β : Type} {g g' : Nat → Option α} {r : α}

/-- Every large enough budget of turns gives `r`. -/
def Ends (g : Nat → Option α) (r : α) : Prop := ∃ enough, ∀ fuel, enough ≤ fuel → g fuel = some r

theorem Ends.after (turns : Nat) (is : ∀ fuel, g (fuel + turns) = some r) : Ends g r := by
  refine ⟨turns, ?_⟩
  intro fuel enough
  obtain ⟨k, rfl⟩ := Nat.exists_eq_add_of_le' enough
  exact is k

theorem Ends.now (is : ∀ fuel, g (fuel + 1) = some r) : Ends g r := Ends.after 1 is

theorem Ends.turn (is : ∀ fuel, g (fuel + 1) = g' fuel) (rest : Ends g' r) : Ends g r := by
  obtain ⟨enough, ends⟩ := rest
  refine ⟨enough + 1, ?_⟩
  intro fuel more
  obtain ⟨k, rfl⟩ := Nat.exists_eq_add_of_le' more
  rw [← Nat.add_assoc, is]
  exact ends _ (Nat.le_add_left _ _)

theorem Ends.bind {f : Nat → α → Option β} {t : β} (first : Ends g r) (rest : Ends (fun fuel => f fuel r) t) :
    Ends (fun fuel => (g fuel).bind (f fuel)) t := by
  obtain ⟨enough, ends⟩ := first
  obtain ⟨enough', ends'⟩ := rest
  refine ⟨max enough enough', ?_⟩
  intro fuel more
  change (g fuel).bind (f fuel) = some t
  rw [ends fuel (by omega)]
  exact ends' fuel (by omega)

theorem Ends.pure (r : α) : Ends (fun _ => some r) r := ⟨0, fun _ _ => rfl⟩

theorem Ends.unique {t : α} (one : Ends g r) (other : Ends g t) : r = t := by
  obtain ⟨enough, ends⟩ := one
  obtain ⟨enough', ends'⟩ := other
  have left := ends (max enough enough') (by omega)
  rw [ends' _ (by omega)] at left
  exact (Option.some.inj left).symm

end Ends

/-! ## The code -/

/-- `sizeof(Header)`. -/
abbrev HDR : Nat := 16

/-- The smallest request `morecore` makes, in headers. -/
abbrev MINCORE : Nat := 4096

abbrev uint (n : Nat) : Nat := n % 2 ^ 32

/-- The value of an unsigned number as an argument of type `int`. -/
def toInt (n : Nat) : Int := if uint n < 2 ^ 31 then uint n else (uint n : Int) - 2 ^ 32

structure Header where
  ptr : Nat
  size : Nat

/-- The answer of `sbrk` to a request, given the end of the memory granted so far. -/
abbrev Sbrk : Type := Nat → Int → Option Nat

/-- The headers in memory and `freep`.  The source does not keep the other three: the end of
the memory granted, the bytes granted by each `sbrk`, and the blocks in use. -/
structure Heap where
  mem : Nat → Header
  freep : Nat
  brk : Nat
  granted : List Extent
  allocated : List Extent

/-- The search loop of `free`. -/
def search (mem : Nat → Header) (bp : Nat) : Nat → Nat → Option Nat
  | 0, _ => none
  | fuel + 1, p =>
    if p < bp ∧ bp < (mem p).ptr then some p
    else if (mem p).ptr ≤ p ∧ (p < bp ∨ bp < (mem p).ptr) then some p
    else search mem bp fuel (mem p).ptr

/-- Link `p` to `q`, the two made one when `q` starts where `p` ends.  `free` does this twice:
for the block and its successor, then for its predecessor and the block. -/
def attach (mem : Nat → Header) (p q : Nat) : Nat → Header :=
  if p + HDR * (mem p).size = q then update mem p ⟨(mem q).ptr, uint ((mem p).size + (mem q).size)⟩
  else update mem p ⟨q, (mem p).size⟩

def free (fuel : Nat) (h : Heap) (ap : Nat) : Option Heap :=
  let bp := ap - HDR
  (search h.mem bp fuel h.freep).map fun p =>
    { h with mem := attach (attach h.mem bp (h.mem p).ptr) p bp, freep := p }

/-- `sbrk` succeeded at `p`: the memory is granted, and its header is filled in. -/
def grant (h : Heap) (p : Nat) (k : Int) (nu : Nat) : Heap :=
  { h with mem := update h.mem p ⟨(h.mem p).ptr, nu⟩, brk := (p + k).toNat, granted := ⟨p, k.toNat⟩ :: h.granted }

/-- `morecore`; the pointer it returns is 0 when `sbrk` failed. -/
def morecore (sbrk : Sbrk) (fuel : Nat) (h : Heap) (nu : Nat) : Option (Heap × Nat) :=
  let nu := if nu < MINCORE then MINCORE else nu
  let k := toInt (nu * HDR)
  match sbrk h.brk k with
  | none => some (h, 0)
  | some p => (free fuel (grant h p k nu) (p + HDR)).map fun h => (h, h.freep)

/-- The body of the loop of `malloc` when the block at `p` is large enough. -/
def take (h : Heap) (nunits prevp p : Nat) : Heap × Nat :=
  if (h.mem p).size = nunits then
    ({ h with mem := update h.mem prevp ⟨(h.mem p).ptr, (h.mem prevp).size⟩, freep := prevp }, p + HDR)
  else
    let size := (h.mem p).size - nunits
    let q := p + HDR * size
    let mem := update h.mem p ⟨(h.mem p).ptr, size⟩
    ({ h with mem := update mem q ⟨(mem q).ptr, nunits⟩, freep := prevp }, q + HDR)

/-- The loop of `malloc`. -/
def mallocFrom (sbrk : Sbrk) (nunits : Nat) : Nat → Heap → Nat → Nat → Option (Heap × Nat)
  | 0, _, _, _ => none
  | fuel + 1, h, prevp, p =>
    if nunits ≤ (h.mem p).size then some (take h nunits prevp p)
    else if p = h.freep then
      (morecore sbrk fuel h nunits).bind fun (h, p) =>
        if p = 0 then some (h, 0) else mallocFrom sbrk nunits fuel h p (h.mem p).ptr
    else mallocFrom sbrk nunits fuel h p (h.mem p).ptr

/-- `nbytes` is an `unsigned int`; the sum is one of type `unsigned long`. -/
def units (nbytes : UInt32) : Nat := uint ((nbytes.toNat + HDR - 1) / HDR + 1)

def malloc (base : Nat) (sbrk : Sbrk) (fuel : Nat) (h : Heap) (nbytes : UInt32) : Option (Heap × Nat) :=
  let nunits := units nbytes
  let h := if h.freep = 0 then { h with mem := update h.mem base ⟨base, 0⟩, freep := base } else h
  mallocFrom sbrk nunits fuel h h.freep (h.mem h.freep).ptr

/-! ## The list in memory -/

/-- Each header of the list points to the next. -/
def Links (mem : Nat → Header) (l : List Nat) : Prop := l.IsChain fun p q => (mem p).ptr = q

section Links

variable {mem mem' : Nat → Header} {l r : List Nat} {p q z : Nat}

theorem links_split : Links mem (l ++ p :: r) ↔ Links mem (l ++ [p]) ∧ Links mem (p :: r) := List.isChain_split

theorem links_cons : Links mem (p :: q :: l) ↔ (mem p).ptr = q ∧ Links mem (q :: l) := List.isChain_cons_cons

/-- The pointer of the last header does not matter. -/
theorem Links.congr (links : Links mem (l ++ [z])) (same : ∀ p ∈ l, (mem' p).ptr = (mem p).ptr) :
    Links mem' (l ++ [z]) := by
  induction l with
  | nil => exact List.isChain_singleton z
  | cons p l ih =>
    have rest := ih links.tail (fun q mem => same q (List.mem_cons_of_mem p mem))
    cases l with
    | nil =>
      have first := (links_cons.mp links).1
      exact links_cons.mpr ⟨(same p List.mem_cons_self).trans first, rest⟩
    | cons q l =>
      have first := (links_cons.mp links).1
      exact links_cons.mpr ⟨(same p List.mem_cons_self).trans first, rest⟩

end Links

/-! ## The search of `free` -/

variable {p prevp : Nat} {mem : Nat → Header} {e a : Extent} {front post : List Extent} {h' : Heap} {sbrk : Sbrk}

section Search

variable {mem : Nat → Header} {bp base q n : Nat} {as : List Nat}

/-- From a header below the block, the search goes up to the last one below it. -/
theorem search_up (links : Links mem (q :: as ++ [n])) (sorted : (q :: as).Pairwise (· < ·))
    (low : ∀ a ∈ q :: as, a < bp)
    (last : bp < n ∨ n ≤ q) : Ends (fun fuel => search mem bp fuel q) ((q :: as).getLast (List.cons_ne_nil _ _)) := by
  induction as generalizing q with
  | nil =>
    have next : (mem q).ptr = n := (links_cons.mp links).1
    have below : q < bp := low q List.mem_cons_self
    apply Ends.now
    intro fuel
    unfold search
    rw [next]
    by_cases between : q < bp ∧ bp < n
    · exact if_pos between
    · rw [if_neg between]
      exact if_pos (by omega)
  | cons a as ih =>
    obtain ⟨next, rest⟩ := links_cons.mp links
    obtain ⟨above, sorted'⟩ := List.pairwise_cons.mp sorted
    have up : q < a := above a List.mem_cons_self
    have below : a < bp := low a (List.mem_cons_of_mem q List.mem_cons_self)
    have ends := ih rest sorted' (fun b mem => low b (List.mem_cons_of_mem q mem)) (by omega)
    refine ends.turn ?_
    intro fuel
    conv_lhs => unfold search
    rw [next, if_neg (by omega), if_neg (by omega)]

/-- From a header above the block, the search goes round to the base. -/
theorem search_round (links : Links mem (q :: as ++ [base])) (sorted : (q :: as).Pairwise (· < ·))
    (high : ∀ a ∈ q :: as, bp < a) (above : base < bp) (found : Ends (fun fuel => search mem bp fuel base) p) :
    Ends (fun fuel => search mem bp fuel q) p := by
  induction as generalizing q with
  | nil =>
    have next : (mem q).ptr = base := (links_cons.mp links).1
    have beyond : bp < q := high q List.mem_cons_self
    refine found.turn ?_
    intro fuel
    conv_lhs => unfold search
    rw [next, if_neg (by omega), if_neg (by omega)]
  | cons a as ih =>
    obtain ⟨next, rest⟩ := links_cons.mp links
    obtain ⟨up, sorted'⟩ := List.pairwise_cons.mp sorted
    have up : q < a := up a List.mem_cons_self
    have beyond : bp < q := high q List.mem_cons_self
    refine (ih rest sorted' (fun b mem => high b (List.mem_cons_of_mem q mem))).turn ?_
    intro fuel
    conv_lhs => unfold search
    rw [next, if_neg (by omega), if_neg (by omega)]

/-- **The search of `free` ends.** Wherever on the ring it starts, it finds the last header
below the block. -/
theorem search_ends {lower upper : List Nat} {start : Nat} (links : Links mem (base :: lower ++ upper ++ [base]))
    (sorted : (base :: lower ++ upper).Pairwise (· < ·)) (low : ∀ a ∈ base :: lower, a < bp)
    (high : ∀ a ∈ upper, bp < a)
    (on : start ∈ base :: lower ++ upper) (is : (base :: lower).getLast (List.cons_ne_nil _ _) = p) :
    Ends (fun fuel => search mem bp fuel start) p := by
  obtain ⟨sortedL, sortedU, across⟩ := List.pairwise_append.mp sorted
  -- the header after the lower part: the first of the upper part, or the base again
  obtain ⟨n, tail, split, next⟩ : ∃ n tail, upper ++ [base] = n :: tail ∧ (bp < n ∨ n = base) := by
    cases upper with
    | nil => exact ⟨base, [], rfl, .inr rfl⟩
    | cons n upper => exact ⟨n, upper ++ [base], rfl, .inl (high n List.mem_cons_self)⟩
  rw [List.append_assoc, split, links_split] at links
  -- the rest of the lower part from any header of it
  have from_lower : ∀ front q as, base :: lower = front ++ q :: as → Ends (fun fuel => search mem bp fuel q) p := by
    intro front q as parts
    have linksQ : Links mem (q :: as ++ [n]) := by
      have whole := links.1
      rw [parts, List.append_assoc, List.cons_append] at whole
      exact (links_split.mp whole).2
    rw [parts] at sortedL low
    have lastIs : (q :: as).getLast (List.cons_ne_nil _ _) = p := by
      rw [← is]
      simp only [parts, List.getLast_append_of_ne_nil _ (List.cons_ne_nil q as)]
    have baseLe : base ≤ q := by
      cases front with
      | nil => exact Nat.le_of_eq (List.cons.inj parts).1
      | cons b front =>
        obtain ⟨rfl, -⟩ := List.cons.inj parts
        exact Nat.le_of_lt ((List.pairwise_cons.mp sortedL).1 q (by simp))
    rw [← lastIs]
    refine search_up linksQ (List.pairwise_append.mp sortedL).2.1 (fun a mem =>
      low a (by simp [List.mem_cons.mp mem])) ?_
    rcases next with beyond | again
    · exact .inl beyond
    · exact .inr (again ▸ baseLe)
  rcases List.mem_append.mp on with inLower | inUpper
  · obtain ⟨front, as, parts⟩ := List.append_of_mem inLower
    exact from_lower front start as parts
  · obtain ⟨front, as, parts⟩ := List.append_of_mem inUpper
    have linksQ : Links mem (start :: as ++ [base]) := by
      have whole := (links_split.mp (links_split.mpr links)).2
      rw [← split, parts, List.append_assoc, List.cons_append] at whole
      exact (links_split.mp whole).2
    rw [parts] at sortedU high
    refine search_round linksQ (List.pairwise_append.mp sortedU).2.1 (fun a mem =>
      high a (by simp [List.mem_cons.mp mem])) ?_
      (from_lower [] base lower rfl)
    exact low base List.mem_cons_self

end Search

/-! ## The ring of free blocks -/

/-- The headers on the ring: the base, which holds nothing, and the free blocks. -/
def nodes (base : Nat) (blocks : List Extent) : List Extent := ⟨base, 0⟩ :: blocks

/-- The free list as it stands in memory: from the base through the blocks in address order
and back, no two of them touching. -/
structure Ring (base : Nat) (mem : Nat → Header) (blocks : List Extent) : Prop where
  links : Links mem ((nodes base blocks).map start ++ [base])
  sizes : ∀ e ∈ nodes base blocks, (mem e.start).size = e.len
  spread : Spread HDR (nodes base blocks)
  full : ∀ e ∈ blocks, 0 < e.len

section Attach

variable {mem : Nat → Header} {e : Extent} {l : List Extent} {z : Nat}

theorem attach_other {q x : Nat} (other : x ≠ p) : attach mem p q x = mem x := by
  unfold attach
  split
  · exact update_of_ne other _ _
  · exact update_of_ne other _ _

/-- Linking a block to the list that follows it is `join`. -/
theorem attach_joins (links : Links mem (l.map start ++ [z])) (sizes : ∀ c ∈ l, (mem c.start).size = c.len)
    (size : (mem e.start).size = e.len) (new : ∀ c ∈ l, c.start ≠ e.start) (last : l = [] → e.stop HDR ≠ z)
    (small : e.len + total l < 2 ^ 32) :
    Links (attach mem e.start ((l.map start).headD z)) ((join HDR e l).map start ++ [z]) ∧
      ∀ c ∈ join HDR e l, (attach mem e.start ((l.map start).headD z) c.start).size = c.len := by
  have others : ∀ q, ∀ c ∈ l, attach mem e.start q c.start = mem c.start := fun q c mem => attach_other (new c mem)
  have kept : ∀ q, Links (attach mem e.start q) (l.map start ++ [z]) := by
    intro q
    refine links.congr ?_
    intro a there
    obtain ⟨c, inList, rfl⟩ := List.mem_map.mp there
    rw [others q c inList]
  cases l with
  | nil =>
    have gap : ¬ e.start + HDR * (mem e.start).size = z := by
      rw [size]
      exact last rfl
    have is : attach mem e.start z e.start = ⟨z, e.len⟩ := by
      unfold attach
      rw [if_neg gap, update_self, size]
    refine ⟨links_cons.mpr ⟨by rw [List.map_nil, List.headD_nil, is], kept _⟩, ?_⟩
    intro c mem
    rw [List.mem_singleton.mp mem, List.map_nil, List.headD_nil, is]
  | cons f rest =>
    rw [List.map_cons, List.headD_cons]
    have sizeF : (mem f.start).size = f.len := sizes f List.mem_cons_self
    by_cases meet : e.stop HDR = f.start
    · have fused : e.start + HDR * (mem e.start).size = f.start := by rw [size, ← meet, stop]
      have is : attach mem e.start f.start e.start = ⟨(mem f.start).ptr, e.len + f.len⟩ := by
        unfold attach
        rw [if_pos fused, update_self, size, sizeF, uint, Nat.mod_eq_of_lt]
        simp only [total_cons] at small
        omega
      rw [join_meet meet]
      constructor
      · -- the successor of the fused block is the old successor of `f`
        have old := (List.isChain_cons.mp links).1
        refine List.isChain_cons.mpr ⟨?_, (kept f.start).tail⟩
        intro a first
        rw [is]
        exact old a first
      · intro c mem
        rcases List.mem_cons.mp mem with rfl | mem
        · rw [is]
        · rw [others _ c (List.mem_cons_of_mem f mem)]
          exact sizes c (List.mem_cons_of_mem f mem)
    · have gap : ¬ e.start + HDR * (mem e.start).size = f.start := by
        rw [size]
        exact meet
      have is : attach mem e.start f.start e.start = ⟨f.start, e.len⟩ := by
        unfold attach
        rw [if_neg gap, update_self, size]
      rw [join_gap meet]
      constructor
      · exact links_cons.mpr ⟨by rw [is], kept _⟩
      · intro c mem
        rcases List.mem_cons.mp mem with rfl | mem
        · rw [is]
        · rw [others _ c mem]
          exact sizes c mem

end Attach

section Ring

variable {base : Nat} {h : Heap} {blocks : List Extent} {b : Extent}

theorem Spread.starts {l : List Extent} (spread : Spread HDR l) : (l.map start).Pairwise (· < ·) := by
  refine List.pairwise_map.mpr (spread.imp ?_)
  intro e f gap
  simp only [stop] at gap
  omega

/-- What `free` leaves: the block is on the ring, alone or fused with those it met. -/
structure Freed (base : Nat) (h : Heap) (blocks : List Extent) (b : Extent) (h' : Heap)
    (blocks' : List Extent) : Prop where
  ring : Ring base h'.mem blocks'
  on : h'.freep ∈ (nodes base blocks').map start
  cover : ∀ x, cover HDR blocks' x = cover HDR (b :: blocks) x
  total : total blocks' = b.len + total blocks
  room : ∃ e ∈ blocks', b.len ≤ e.len
  frame : ∀ x, x ≠ b.start → x ∉ (nodes base blocks).map start → h'.mem x = h.mem x
  brk : h'.brk = h.brk
  granted : h'.granted = h.granted
  allocated : h'.allocated = h.allocated

/-- A header of the ring above the base is that of a block. -/
theorem Ring.node_full (ring : Ring base mem blocks) (there : e ∈ nodes base blocks)
    (above : base < e.start) : 0 < e.len := by
  rcases List.mem_cons.mp there with rfl | there
  · exact absurd above (Nat.lt_irrefl _)
  · exact ring.full e there

theorem Ring.of_nodes {l : List Extent} (is : l = nodes base blocks)
    (links : Links mem (l.map start ++ [base])) (sizes : ∀ e ∈ l, (mem e.start).size = e.len) (spread : Spread HDR l)
    (full : ∀ e ∈ l, base < e.start → 0 < e.len) : Ring base mem blocks := by
  subst is
  refine ⟨links, sizes, spread, ?_⟩
  intro e there
  have gap := (List.pairwise_cons.mp spread).1 e there
  exact full e (List.mem_cons_of_mem _ there) (by simpa [stop] using gap)

theorem cover_nodes (base : Nat) (blocks : List Extent) (x : Nat) :
    cover HDR (nodes base blocks) x = cover HDR blocks x := by
  have empty : ¬ Has HDR ⟨base, 0⟩ x := by
    simp only [Has, stop]
    omega
  simp [nodes, empty]

theorem total_nodes (base : Nat) (blocks : List Extent) : total (nodes base blocks) = total blocks := by
  simp [nodes]

/-- The base stays the first header. -/
theorem nodes_insert {p : Extent} (parts : nodes base blocks = front ++ p :: post)
    (above : base < b.start) : ∃ blocks', front ++ join HDR p (join HDR b post) = nodes base blocks' := by
  cases front with
  | nil =>
    obtain ⟨rfl, rfl⟩ := List.cons.inj parts
    obtain ⟨j, rest, is, starts, -, -⟩ := join_eq (u := HDR) b blocks
    refine ⟨join HDR b blocks, ?_⟩
    rw [is, List.nil_append, join_gap]
    · rfl
    · simp only [stop]
      omega
  | cons f front =>
    obtain ⟨rfl, -⟩ := List.cons.inj parts
    exact ⟨front ++ join HDR p (join HDR b post), rfl⟩

/-- The block, or what it was fused into, is among the headers. -/
theorem exists_mem_insert (front : List Extent) (p b : Extent) (post : List Extent) :
    ∃ e ∈ front ++ join HDR p (join HDR b post), b.len ≤ e.len := by
  obtain ⟨j, rest, is, -, more, -⟩ := join_eq (u := HDR) b post
  rw [is]
  by_cases meet : p.stop HDR = j.start
  · rw [join_meet meet]
    exact ⟨_, List.mem_append_right _ List.mem_cons_self, by simp only; omega⟩
  · rw [join_gap meet]
    exact ⟨j, List.mem_append_right _ (List.mem_cons_of_mem p List.mem_cons_self), more⟩

/-- `b` belongs between the headers `p` and `post` of the ring. -/
structure Between (base : Nat) (blocks : List Extent) (b : Extent) (front : List Extent)
    (p : Extent) (post : List Extent) :
    Prop where
  parts : nodes base blocks = front ++ p :: post
  above : base < b.start
  meets : p.stop HDR ≤ b.start
  below : ∀ c ∈ front ++ [p], c.start < b.start
  beyond : ∀ c ∈ post, b.stop HDR ≤ c.start
  after : ∀ c ∈ post, b.start < c.start

theorem Ring.between (ring : Ring base mem blocks) (fullB : 0 < b.len) (above : base < b.start)
    (apart : ∀ c ∈ blocks, c.stop HDR ≤ b.start ∨ b.stop HDR ≤ c.start) :
    ∃ front p post, Between base blocks b front p post := by
  have fullUnits : ∀ c ∈ blocks, 0 < HDR * c.len := fun c mem => Nat.mul_pos (by decide) (ring.full c mem)
  obtain ⟨front, p, post, parts, low, high⟩ :=
    place ring.spread (by simpa [stop] using Nat.le_of_lt above) apart fullUnits
  refine ⟨front, p, post, parts, above, low p (by simp), ?_, high, ?_⟩
  · intro c mem
    have ends := low c mem
    by_cases isBase : c = ⟨base, 0⟩
    · rw [isBase]
      exact above
    · have onRing : c ∈ nodes base blocks := by
        unfold nodes
        rw [parts]
        simp only [List.mem_append, List.mem_cons] at mem ⊢
        tauto
      have := fullUnits c ((List.mem_cons.mp onRing).resolve_left isBase)
      simp only [stop] at ends
      omega
  · intro c mem
    have starts := high c mem
    have : 0 < HDR * b.len := Nat.mul_pos (by decide) fullB
    simp only [stop] at starts
    omega

namespace Between

variable {front post : List Extent} {p : Extent}

/-- The search of `free` finds the predecessor. -/
theorem found (between : Between base blocks b front p post) (ring : Ring base h.mem blocks)
    (on : h.freep ∈ (nodes base blocks).map start) : Ends (fun fuel => search h.mem b.start fuel h.freep) p.start := by
  have parts := between.parts
  have links := ring.links
  have starts := Spread.starts ring.spread
  obtain ⟨lower, isLower⟩ : ∃ lower, (front ++ [p]).map start = base :: lower := by
    cases front with
    | nil =>
      obtain ⟨rfl, -⟩ := List.cons.inj parts
      exact ⟨[], rfl⟩
    | cons f front =>
      obtain ⟨rfl, -⟩ := List.cons.inj parts
      exact ⟨_, rfl⟩
  have whole : (nodes base blocks).map start = base :: lower ++ post.map start := by
    rw [← isLower, parts, ← List.map_append, List.append_assoc, List.singleton_append]
  rw [whole] at links starts on
  refine search_ends links starts ?_ ?_ on ?_
  · intro a there
    rw [← isLower] at there
    obtain ⟨c, mem, rfl⟩ := List.mem_map.mp there
    exact between.below c mem
  · intro a there
    obtain ⟨c, mem, rfl⟩ := List.mem_map.mp there
    exact between.after c mem
  · simp only [← isLower, List.map_append, List.map_cons, List.map_nil, List.getLast_append_singleton]

/-- The list in memory once the block is linked to its successor and its predecessor to it. -/
theorem attached (between : Between base blocks b front p post) (ring : Ring base h.mem blocks)
    (size : (h.mem b.start).size = b.len) (small : b.len + Extent.total blocks < 2 ^ 32) :
    ∃ mem, attach (attach h.mem b.start (h.mem p.start).ptr) p.start b.start = mem ∧
      Links mem ((front ++ join HDR p (join HDR b post)).map start ++ [base]) ∧
      (∀ e ∈ front ++ join HDR p (join HDR b post), (mem e.start).size = e.len) ∧
      ∀ x, x ≠ p.start → x ≠ b.start → mem x = h.mem x := by
  obtain ⟨parts, above, meets, below, beyond, after⟩ := between
  obtain ⟨links, sizes, spread, -⟩ := ring
  rw [parts, List.map_append, List.map_cons, List.append_assoc, List.cons_append, links_split] at links
  rw [parts] at sizes spread
  rw [← total_nodes base, parts, total_append, total_cons] at small
  have belowP : p.start < b.start := below p (by simp)
  have next : (h.mem p.start).ptr = (post.map start).headD base := by
    cases post with
    | nil => exact (links_cons.mp links.2).1
    | cons f post => exact (links_cons.mp links.2).1
  -- the block before its successor
  obtain ⟨links1, sizes1⟩ := attach_joins links.2.tail (fun c mem => sizes c (by simp [mem])) size
    (fun c mem => Nat.ne_of_gt (after c mem)) (fun _ => by simp only [stop]; omega) (by omega)
  rw [← next] at links1 sizes1
  generalize m1 : attach h.mem b.start (h.mem p.start).ptr = mem1 at links1 sizes1
  have other1 : ∀ x, x ≠ b.start → mem1 x = h.mem x := by
    intro x other
    rw [← m1]
    exact attach_other other
  -- its predecessor before the block
  obtain ⟨j, rest, isJ, startJ, -, -⟩ := join_eq (u := HDR) b post
  have headJ : ((join HDR b post).map start).headD base = b.start := by rw [isJ, List.map_cons, List.headD_cons, startJ]
  have beyondP : ∀ c ∈ join HDR b post, p.start < c.start := by
    intro c mem
    rcases mem_join mem with ⟨is, -⟩ | mem
    · rw [is]
      exact belowP
    · exact Nat.lt_trans belowP (after c mem)
  obtain ⟨links2, sizes2⟩ :=
    attach_joins links1 sizes1 (by rw [other1 _ (Nat.ne_of_lt belowP)]; exact sizes p (by simp))
    (fun c mem => Nat.ne_of_gt (beyondP c mem)) (fun no => by rw [isJ] at no; cases no) (by rw [total_join]; omega)
  rw [headJ] at links2 sizes2
  generalize m2 : attach mem1 p.start b.start = mem2 at links2 sizes2
  have other2 : ∀ x, x ≠ p.start → x ≠ b.start → mem2 x = h.mem x := by
    intro x notP notB
    rw [← m2, attach_other notP, other1 x notB]
  -- the headers before `p` are as they were
  have before : ∀ c ∈ front, mem2 c.start = h.mem c.start := by
    intro c mem
    have gap : c.stop HDR < p.start := (List.pairwise_append.mp spread).2.2 c mem p List.mem_cons_self
    simp only [stop] at gap
    exact other2 _ (by omega) (by omega)
  refine ⟨mem2, rfl, ?_, ?_, other2⟩
  · obtain ⟨j2, rest2, is2, start2, -, -⟩ := join_eq (u := HDR) p (join HDR b post)
    rw [is2] at links2 ⊢
    rw [List.map_append, List.map_cons, List.append_assoc, List.cons_append, links_split, start2]
    rw [List.map_cons, start2] at links2
    refine ⟨links.1.congr ?_, links2⟩
    intro a there
    obtain ⟨c, mem, rfl⟩ := List.mem_map.mp there
    rw [before c mem]
  · intro e there
    rcases List.mem_append.mp there with inFront | joined
    · rw [before e inFront]
      exact sizes e (List.mem_append_left _ inFront)
    · exact sizes2 e joined

/-- A header above the base holds something after as before. -/
theorem full (between : Between base blocks b front p post) (ring : Ring base mem blocks)
    (fullB : 0 < b.len) (there : e ∈ front ++ join HDR p (join HDR b post)) (notBase : base < e.start) : 0 < e.len := by
  have old : ∀ c ∈ front ++ p :: post, base < c.start → 0 < c.len := by
    intro c mem
    exact ring.node_full (between.parts ▸ mem)
  rcases List.mem_append.mp there with inFront | joined
  · exact old e (List.mem_append_left _ inFront) notBase
  · rcases mem_join joined with ⟨starts, more⟩ | joined
    · exact Nat.lt_of_lt_of_le (old p (by simp) (starts ▸ notBase)) more
    · rcases mem_join joined with ⟨-, more⟩ | inPost
      · exact Nat.lt_of_lt_of_le fullB more
      · exact old e (by simp [inPost]) notBase

end Between

/-- **`free` puts a block back.** Its search ends, and the block joins the ring. -/
theorem Ring.free (ring : Ring base h.mem blocks) (on : h.freep ∈ (nodes base blocks).map start)
    (size : (h.mem b.start).size = b.len) (fullB : 0 < b.len) (above : base < b.start)
    (apart : ∀ c ∈ blocks, c.stop HDR ≤ b.start ∨ b.stop HDR ≤ c.start) (small : b.len + Extent.total blocks < 2 ^ 32) :
    ∃ h' blocks', Ends (fun fuel => free fuel h (b.start + HDR)) h' ∧ Freed base h blocks b h' blocks' := by
  obtain ⟨front, p, post, between⟩ := ring.between fullB above apart
  obtain ⟨mem, isMem, links, sizes, other⟩ := between.attached ring size small
  have parts := between.parts
  obtain ⟨blocks', isNodes⟩ := nodes_insert parts above
  have spread := spread_insert (parts ▸ ring.spread) between.meets between.beyond
  refine ⟨{ h with mem := mem, freep := p.start }, blocks', ?_, ?_⟩
  · have ends := (between.found ring on).bind (f := fun _ p =>
      some { h with mem := attach (attach h.mem b.start (h.mem p).ptr) p b.start, freep := p }) (Ends.pure _)
    rw [isMem] at ends
    obtain ⟨enough, ends⟩ := ends
    refine ⟨enough, ?_⟩
    intro fuel more
    simp only [Umalloc.free, Nat.add_sub_cancel, Option.map_eq_bind]
    exact ends fuel more
  constructor
  case ring => exact .of_nodes isNodes links sizes spread fun e there => between.full ring fullB there
  case on =>
    rw [← isNodes]
    obtain ⟨j, inJoin, starts, -⟩ := exists_mem_join (u := HDR) p (join HDR b post)
    exact List.mem_map.mpr ⟨j, List.mem_append_right _ inJoin, starts⟩
  case cover =>
    intro x
    rw [← cover_nodes base, ← isNodes, cover_insert, ← parts, cover_cons, cover_nodes, cover_cons]
  case total => rw [← total_nodes base, ← isNodes, total_insert, ← parts, total_nodes]
  case room =>
    obtain ⟨e, there, more⟩ := exists_mem_insert front p b post
    rw [isNodes] at there
    rcases List.mem_cons.mp there with rfl | there
    · exact absurd more (Nat.not_le.mpr fullB)
    · exact ⟨e, there, more⟩
  case frame =>
    intro x notB notNode
    refine other x ?_ notB
    rintro rfl
    exact notNode (List.mem_map.mpr ⟨p, by rw [parts]; simp, rfl⟩)
  case brk | granted | allocated => rfl

/-- A list that starts as the ring does starts with the base. -/
theorem nodes_tail {tail : List Extent} (parts : nodes base blocks = front ++ a :: tail)
    (new : List Extent) : ∃ blocks', front ++ a :: new = nodes base blocks' := by
  cases front with
  | nil =>
    obtain ⟨rfl, -⟩ := List.cons.inj parts
    exact ⟨new, rfl⟩
  | cons f front =>
    obtain ⟨rfl, -⟩ := List.cons.inj parts
    exact ⟨front ++ a :: new, rfl⟩

/-- What `take` leaves: the block `r` is off the ring and its header gives its size. -/
structure Taken (base : Nat) (h : Heap) (blocks : List Extent) (n : Nat) (r : Extent) (h' : Heap)
    (blocks' : List Extent) :
    Prop where
  ring : Ring base h'.mem blocks'
  on : h'.freep ∈ (nodes base blocks').map start
  len : r.len = n
  size : (h'.mem r.start).size = n
  cover : ∀ x, cover HDR (r :: blocks') x = cover HDR blocks x
  total : n + total blocks' = total blocks
  frame : ∀ x, x ≠ r.start → x ∉ (nodes base blocks).map start → h'.mem x = h.mem x
  brk : h'.brk = h.brk
  granted : h'.granted = h.granted
  allocated : h'.allocated = h.allocated

section Take

variable {front post : List Extent} {a e : Extent} {n : Nat}

/-- The whole block is taken: its predecessor is linked to its successor. -/
theorem Ring.take_all (ring : Ring base h.mem blocks) (parts : nodes base blocks = front ++ a :: e :: post)
    (fits : e.len = n) :
    ∃ h' blocks', take h n a.start e.start = (h', e.start + HDR) ∧ Taken base h blocks n e h' blocks' := by
  have links := ring.links
  have sizes := ring.sizes
  have spread := ring.spread
  have starts := Spread.starts spread
  rw [parts] at links sizes spread starts
  have sizeE : (h.mem e.start).size = n := fits ▸ sizes e (by simp)
  rw [List.map_append] at starts
  obtain ⟨-, startsA, across⟩ := List.pairwise_append.mp starts
  have afterA : ∀ c ∈ e :: post, a.start < c.start := fun c mem =>
    (List.pairwise_cons.mp startsA).1 _ (List.mem_map_of_mem mem)
  have beforeA : ∀ c ∈ front, c.start < a.start := fun c mem => across _ (List.mem_map_of_mem mem) _ (by simp)
  obtain ⟨blocks', isNodes⟩ := nodes_tail parts post
  have fewer : ∀ c ∈ front ++ a :: post, c ∈ front ++ a :: e :: post := by
    intro c
    simp only [List.mem_append, List.mem_cons]
    tauto
  obtain ⟨mem, isMem⟩ : ∃ mem, update h.mem a.start ⟨(h.mem e.start).ptr, (h.mem a.start).size⟩ = mem := ⟨_, rfl⟩
  have self : mem a.start = ⟨(h.mem e.start).ptr, (h.mem a.start).size⟩ := by rw [← isMem, update_self]
  have other : ∀ x, x ≠ a.start → mem x = h.mem x := fun x notA => by rw [← isMem, update_of_ne notA]
  have linked : Links mem ((front ++ a :: post).map start ++ [base]) := by
    simp only [List.map_append, List.map_cons, List.append_assoc, List.cons_append] at links ⊢
    rw [links_split] at links ⊢
    constructor
    · refine links.1.congr ?_
      intro p there
      obtain ⟨c, inFront, rfl⟩ := List.mem_map.mp there
      rw [other _ (Nat.ne_of_lt (beforeA c inFront))]
    · have old := (List.isChain_cons.mp links.2.tail).1
      refine List.isChain_cons.mpr ⟨?_, Links.congr links.2.tail.tail ?_⟩
      · intro q first
        rw [self]
        exact old q first
      · intro p there
        obtain ⟨c, inPost, rfl⟩ := List.mem_map.mp there
        rw [other _ (Nat.ne_of_gt (afterA c (List.mem_cons_of_mem e inPost)))]
  have sized : ∀ c ∈ front ++ a :: post, (mem c.start).size = c.len := by
    intro c there
    have old := sizes c (fewer c there)
    by_cases isA : c.start = a.start
    · rw [isA] at old ⊢
      rw [self]
      exact old
    · rw [other _ isA]
      exact old
  have sub : (front ++ a :: post).Sublist (front ++ a :: e :: post) :=
    (List.Sublist.refl front).append ((List.sublist_cons_self e post).cons_cons a)
  refine ⟨{ h with mem := mem, freep := a.start }, blocks', ?_, ?_⟩
  · rw [take, if_pos sizeE, isMem]
  constructor
  case ring =>
    refine .of_nodes isNodes linked sized (spread.sublist sub) ?_
    intro c there
    exact ring.node_full (parts ▸ fewer c there)
  case on =>
    rw [← isNodes]
    exact List.mem_map_of_mem (by simp)
  case len => exact fits
  case size => exact (congrArg Header.size (other _ (Nat.ne_of_gt (afterA e List.mem_cons_self)))).trans sizeE
  case cover =>
    intro x
    rw [cover_cons, ← cover_nodes base blocks', ← isNodes, ← cover_nodes base blocks, parts]
    simp only [cover_append, cover_cons]
    omega
  case total =>
    rw [← total_nodes base blocks', ← isNodes, ← total_nodes base blocks, parts]
    simp only [total_append, total_cons]
    omega
  case frame =>
    intro x _ notNode
    refine other x ?_
    rintro rfl
    exact notNode (List.mem_map_of_mem (by rw [parts]; simp))
  case brk | granted | allocated => rfl

/-- The tail of the block is taken: the block keeps its place and its links. -/
theorem Ring.take_tail (ring : Ring base h.mem blocks) (parts : nodes base blocks = front ++ a :: e :: post)
    (fits : n < e.len) (some' : 0 < n) :
    ∃ h' blocks', take h n a.start e.start = (h', e.start + HDR * (e.len - n) + HDR) ∧
      Taken base h blocks n ⟨e.start + HDR * (e.len - n), n⟩ h' blocks' := by
  have links := ring.links
  have sizes := ring.sizes
  have spread := ring.spread
  rw [parts] at links sizes spread
  have sizeE : (h.mem e.start).size = e.len := sizes e (by simp)
  obtain ⟨-, spreadA, across⟩ := List.pairwise_append.mp spread
  obtain ⟨gapA, spreadE⟩ := List.pairwise_cons.mp spreadA
  obtain ⟨gapE, spreadPost⟩ := List.pairwise_cons.mp spreadE
  obtain ⟨r, isR⟩ : ∃ r : Nat, e.start + HDR * (e.len - n) = r := ⟨_, rfl⟩
  have inside : e.start < r ∧ r < e.stop HDR := by
    simp only [HDR, stop] at isR ⊢
    omega
  -- no header of the ring stands in the part taken
  have notR : ∀ c ∈ front ++ a :: e :: post, c.start ≠ r := by
    intro c there
    have before : ∀ d : Extent, d.stop HDR < e.start → d.start ≠ r := by
      intro d gap
      simp only [stop] at gap
      omega
    rcases List.mem_append.mp there with inFront | there
    · exact before c (across c inFront e (by simp))
    · rcases List.mem_cons.mp there with rfl | there
      · exact before _ (gapA e (by simp))
      · rcases List.mem_cons.mp there with rfl | inPost
        · omega
        · have := gapE c inPost
          omega
  obtain ⟨e', isE'⟩ : ∃ e' : Extent, (⟨e.start, e.len - n⟩ : Extent) = e' := ⟨_, rfl⟩
  have startE' : e'.start = e.start := by rw [← isE']
  have lenE' : e'.len = e.len - n := by rw [← isE']
  have stopE' : e'.stop HDR ≤ e.stop HDR := by
    simp only [stop, HDR, startE', lenE']
    omega
  obtain ⟨blocks', isNodes⟩ := nodes_tail parts (e' :: post)
  obtain ⟨mem, isMem⟩ : ∃ mem, update (update h.mem e.start ⟨(h.mem e.start).ptr, e.len - n⟩) r
      ⟨(update h.mem e.start ⟨(h.mem e.start).ptr, e.len - n⟩ r).ptr, n⟩ = mem := ⟨_, rfl⟩
  have other : ∀ x, x ≠ e.start → x ≠ r → mem x = h.mem x := fun x notE notR => by
    rw [← isMem, update_of_ne notR, update_of_ne notE]
  have selfE : mem e.start = ⟨(h.mem e.start).ptr, e.len - n⟩ := by
    rw [← isMem, update_of_ne (notR e (by simp)), update_self]
  have selfR : (mem r).size = n := by rw [← isMem, update_self]
  have sameStarts : (front ++ a :: e' :: post).map start = (front ++ a :: e :: post).map start := by
    simp only [List.map_append, List.map_cons, startE']
  have linked : Links mem ((front ++ a :: e' :: post).map start ++ [base]) := by
    rw [sameStarts]
    refine links.congr ?_
    intro p there
    obtain ⟨c, onRing, rfl⟩ := List.mem_map.mp there
    by_cases isE : c.start = e.start
    · rw [isE, selfE]
    · rw [other _ isE (notR c onRing)]
  have cases_new : ∀ c ∈ front ++ a :: e' :: post, c = e' ∨ c ∈ front ++ a :: e :: post ∧ c.start ≠ e.start := by
    intro c there
    have later : c ∈ post → c.start ≠ e.start := by
      intro inPost
      have := gapE c inPost
      omega
    have sooner : c.stop HDR < e.start → c.start ≠ e.start := by
      intro gap
      simp only [stop] at gap
      omega
    simp only [List.mem_append, List.mem_cons] at there ⊢
    rcases there with inFront | rfl | rfl | inPost
    · exact .inr ⟨.inl inFront, sooner (across c inFront e (by simp))⟩
    · exact .inr ⟨.inr (.inl rfl), sooner (gapA e (by simp))⟩
    · exact .inl rfl
    · exact .inr ⟨.inr (.inr (.inr inPost)), later inPost⟩
  have sized : ∀ c ∈ front ++ a :: e' :: post, (mem c.start).size = c.len := by
    intro c there
    rcases cases_new c there with rfl | ⟨old, notE⟩
    · rw [startE', selfE, lenE']
    · rw [other _ notE (notR c old)]
      exact sizes c old
  have apart : Spread HDR (front ++ a :: e' :: post) := by
    refine List.pairwise_append.mpr ⟨(List.pairwise_append.mp spread).1, ?_, ?_⟩
    · refine List.pairwise_cons.mpr ⟨?_, List.pairwise_cons.mpr ⟨?_, spreadPost⟩⟩
      · intro c there
        rcases List.mem_cons.mp there with rfl | inPost
        · rw [startE']
          exact gapA e List.mem_cons_self
        · exact gapA c (List.mem_cons_of_mem e inPost)
      · intro c inPost
        exact Nat.lt_of_le_of_lt stopE' (gapE c inPost)
    · intro d inFront c there
      rcases List.mem_cons.mp there with rfl | there
      · exact across d inFront _ List.mem_cons_self
      · rcases List.mem_cons.mp there with rfl | inPost
        · rw [startE']
          exact across d inFront e (by simp)
        · exact across d inFront c (by simp [inPost])
  refine ⟨{ h with mem := mem, freep := a.start }, blocks', ?_, ?_⟩
  · rw [take, sizeE, if_neg (Nat.ne_of_gt fits)]
    simp only [isR, isMem]
  constructor
  case ring =>
    refine .of_nodes isNodes linked sized apart ?_
    intro c there above
    rcases cases_new c there with rfl | ⟨old, -⟩
    · omega
    · exact ring.node_full (parts ▸ old) above
  case on =>
    rw [← isNodes]
    exact List.mem_map_of_mem (by simp)
  case len => rfl
  case size =>
    rw [isR]
    exact selfR
  case cover =>
    intro x
    have fused := has_fused (u := HDR) (e := e') (f := ⟨r, n⟩) (by rw [stop, startE', lenE', isR]) x
    have whole : (⟨e'.start, e'.len + n⟩ : Extent) = e := by rw [startE', lenE', Nat.sub_add_cancel (Nat.le_of_lt fits)]
    rw [whole] at fused
    rw [cover_cons, ← cover_nodes base blocks', ← isNodes, ← cover_nodes base blocks, parts, isR]
    simp only [cover_append, cover_cons]
    omega
  case total =>
    rw [← total_nodes base blocks', ← isNodes, ← total_nodes base blocks, parts]
    simp only [total_append, total_cons]
    omega
  case frame =>
    intro x notR notNode
    refine other x ?_ (isR ▸ notR)
    rintro rfl
    exact notNode (List.mem_map_of_mem (by rw [parts]; simp))
  case brk | granted | allocated => rfl

/-- **`take` gives a block of the size asked for**, cut from the block that was found. -/
theorem Ring.take (ring : Ring base h.mem blocks) (parts : nodes base blocks = front ++ a :: e :: post)
    (fits : n ≤ e.len) (some' : 0 < n) :
    ∃ r h' blocks', take h n a.start e.start = (h', r.start + HDR) ∧ Taken base h blocks n r h' blocks' := by
  rcases Nat.eq_or_lt_of_le fits with all | tail
  · obtain ⟨h', blocks', is, taken⟩ := ring.take_all parts all.symm
    exact ⟨e, h', blocks', is, taken⟩
  · obtain ⟨h', blocks', is, taken⟩ := ring.take_tail parts tail some'
    exact ⟨_, h', blocks', is, taken⟩

end Take

/-! ## The loop of `malloc` -/

section Scan

variable {sbrk : Sbrk} {n : Nat}

/-- The loop, started with `prevp` and `p`, takes from a block of the ring. -/
def Fits (base : Nat) (sbrk : Sbrk) (n : Nat) (h : Heap) (blocks : List Extent) (prevp p : Nat) : Prop :=
  ∃ front a e post, nodes base blocks = front ++ a :: e :: post ∧ n ≤ e.len ∧
    Ends (fun fuel => mallocFrom sbrk n fuel h prevp p) (take h n a.start e.start)

/-- What the loop does at `freep`: ask for more and start again. -/
def grow (sbrk : Sbrk) (n : Nat) (h : Heap) (fuel : Nat) : Option (Heap × Nat) :=
  (morecore sbrk fuel h n).bind fun (h, p) =>
    if p = 0 then some (h, 0) else mallocFrom sbrk n fuel h p (h.mem p).ptr

theorem mallocFrom_fits (fits : n ≤ (h.mem p).size) (fuel : Nat) :
    mallocFrom sbrk n (fuel + 1) h prevp p = some (take h n prevp p) := by
  conv_lhs => unfold mallocFrom
  exact if_pos fits

theorem mallocFrom_next (small : (h.mem p).size < n) (before : p ≠ h.freep) (fuel : Nat) :
    mallocFrom sbrk n (fuel + 1) h prevp p = mallocFrom sbrk n fuel h p (h.mem p).ptr := by
  conv_lhs => unfold mallocFrom
  rw [if_neg (Nat.not_le.mpr small), if_neg before]

theorem mallocFrom_grow (small : (h.mem p).size < n) (round : p = h.freep) (fuel : Nat) :
    mallocFrom sbrk n (fuel + 1) h prevp p = grow sbrk n h fuel := by
  conv_lhs => unfold mallocFrom
  rw [if_neg (Nat.not_le.mpr small), if_pos round]
  rfl

/-- Along a stretch of the ring that does not reach `freep`, the loop takes from the first
block that is large enough, or comes to the end of the stretch. -/
theorem walk (ring : Ring base h.mem blocks) {es : List Extent} {z : Nat}
    (parts : nodes base blocks = front ++ a :: es ++ post) (links : Links h.mem (a.start :: es.map start ++ [z]))
    (before : ∀ e ∈ es, e.start ≠ h.freep) :
    Fits base sbrk n h blocks a.start (h.mem a.start).ptr ∨
      (∀ e ∈ es, e.len < n) ∧ ∃ init last, a :: es = init ++ [last] ∧
        ∀ r, Ends (fun fuel => mallocFrom sbrk n fuel h last.start z) r →
          Ends (fun fuel => mallocFrom sbrk n fuel h a.start (h.mem a.start).ptr) r := by
  induction es generalizing front a with
  | nil =>
    have next : (h.mem a.start).ptr = z := (links_cons.mp links).1
    refine .inr ⟨by simp, [], a, rfl, ?_⟩
    intro r ends
    rw [next]
    exact ends
  | cons e es ih =>
    obtain ⟨next, rest⟩ := links_cons.mp links
    change (h.mem a.start).ptr = e.start at next
    have size : (h.mem e.start).size = e.len := ring.sizes e (by rw [parts]; simp)
    rw [next]
    by_cases fits : n ≤ e.len
    · refine .inl ⟨front, a, e, es ++ post, by rw [parts]; simp, fits, ?_⟩
      exact .now (mallocFrom_fits (size ▸ fits))
    · have small : (h.mem e.start).size < n := by omega
      have turn : ∀ fuel, mallocFrom sbrk n (fuel + 1) h a.start e.start = _ :=
        mallocFrom_next small (before e List.mem_cons_self)
      have parts' : nodes base blocks = (front ++ [a]) ++ e :: es ++ post := by rw [parts]; simp
      rcases ih parts' rest (fun c mem => before c (List.mem_cons_of_mem e mem)) with found | ⟨none', init, last,
        split, ends⟩
      · obtain ⟨front', a', e', post', parts'', fits', ends⟩ := found
        exact .inl ⟨front', a', e', post', parts'', fits', ends.turn turn⟩
      · refine .inr ⟨?_, a :: init, last, by rw [split]; rfl, ?_⟩
        · intro c there
          rcases List.mem_cons.mp there with rfl | there
          · omega
          · exact none' c there
        · intro r atEnd
          exact (ends r atEnd).turn turn

/-- **The loop of `malloc` goes once round the ring**: it takes from a block that is large
enough, or there is none and it comes back to `freep` to ask for more. -/
theorem scan (sbrk : Sbrk) (ring : Ring base h.mem blocks) (on : h.freep ∈ (nodes base blocks).map start)
    (some' : 0 < n) :
    Fits base sbrk n h blocks h.freep (h.mem h.freep).ptr ∨
      (∀ e ∈ blocks, e.len < n) ∧
        ∀ r, Ends (grow sbrk n h) r → Ends (fun fuel => mallocFrom sbrk n fuel h h.freep (h.mem h.freep).ptr) r := by
  obtain ⟨f, there, isF⟩ := List.mem_map.mp on
  obtain ⟨before, after, parts⟩ := List.append_of_mem there
  have links := ring.links
  have starts := Spread.starts ring.spread
  rw [parts] at links starts
  simp only [List.map_append, List.map_cons, List.append_assoc, List.cons_append] at links starts
  obtain ⟨startsB, startsF, across⟩ := List.pairwise_append.mp starts
  obtain ⟨linksB, linksF⟩ := links_split.mp links
  have notAfter : ∀ e ∈ after, e.start ≠ h.freep := by
    intro e mem
    rw [← isF]
    exact Nat.ne_of_gt ((List.pairwise_cons.mp startsF).1 _ (List.mem_map_of_mem mem))
  have notBefore : ∀ e ∈ before, e.start ≠ h.freep := by
    intro e mem
    rw [← isF]
    exact Nat.ne_of_lt (across _ (List.mem_map_of_mem mem) _ List.mem_cons_self)
  have sizeBase : (h.mem base).size < n := by
    have size : (h.mem base).size = 0 := ring.sizes ⟨base, 0⟩ List.mem_cons_self
    omega
  -- the blocks after `freep`, up to the base
  have parts1 : nodes base blocks = before ++ f :: after ++ [] := by rw [parts, List.append_nil]
  rw [← isF]
  rcases walk ring parts1 linksF notAfter with found | ⟨smallAfter, init, last, -, ends1⟩
  · exact .inl found
  cases before with
  | nil =>
    -- `freep` is the base: once round
    obtain ⟨rfl, rfl⟩ := List.cons.inj parts
    refine .inr ⟨smallAfter, ?_⟩
    intro r more
    exact ends1 r (more.turn (mallocFrom_grow sizeBase isF))
  | cons b before =>
    obtain ⟨rfl, rest⟩ := List.cons.inj parts
    -- past the base, then the blocks before `freep`
    have turn : ∀ fuel, mallocFrom sbrk n (fuel + 1) h last.start base = _ :=
      mallocFrom_next sizeBase (notBefore ⟨base, 0⟩ List.mem_cons_self)
    have parts2 : nodes base blocks = [] ++ ⟨base, 0⟩ :: before ++ f :: after := parts
    rcases walk ring parts2 linksB (fun e mem => notBefore e (List.mem_cons_of_mem _ mem)) with
      found | ⟨smallBefore, init', last', split, ends2⟩
    · obtain ⟨front, a, e, post, parts', fits, ends⟩ := found
      exact .inl ⟨front, a, e, post, parts', fits, ends1 _ (ends.turn turn)⟩
    have sizeF : (h.mem f.start).size = f.len := ring.sizes f (by rw [parts]; simp)
    by_cases fits : n ≤ f.len
    · refine .inl ⟨init', last', f, after, ?_, fits, ?_⟩
      · rw [parts2, List.nil_append, split]
        simp
      · refine ends1 _ (Ends.turn turn (ends2 _ ?_))
        exact .now (mallocFrom_fits (sizeF ▸ fits))
    · refine .inr ⟨?_, ?_⟩
      · intro e mem
        rw [rest] at mem
        rcases List.mem_append.mp mem with inBefore | mem
        · exact smallBefore e inBefore
        · rcases List.mem_cons.mp mem with rfl | inAfter
          · omega
          · exact smallAfter e inAfter
      · intro r more
        refine ends1 _ (Ends.turn turn (ends2 _ ?_))
        exact more.turn (mallocFrom_grow (by omega) isF)

end Scan

end Ring

/-! ## The heap -/

/-- The free blocks, on a ring in address order and fully coalesced, and the blocks in use
make up the memory granted, each byte of it once. -/
structure Shape (base : Nat) (h : Heap) (blocks used : List Extent) : Prop where
  ring : Ring base h.mem blocks
  covers : ∀ x, cover HDR blocks x + cover HDR used x = cover 1 h.granted x
  once : ∀ x, cover 1 h.granted x ≤ 1
  sum : HDR * (total blocks + total used) = total h.granted

/-- With what the next call relies on. -/
structure Inv (base : Nat) (h : Heap) (blocks used : List Extent) : Prop extends Shape base h blocks used where
  on : h.freep ∈ (nodes base blocks).map start
  sizes : ∀ e ∈ used, (h.mem e.start).size = e.len
  full : ∀ e ∈ used, 0 < e.len
  within : ∀ x, 0 < cover 1 h.granted x → base + HDR ≤ x ∧ x < h.brk
  room : 0 < base ∧ base + HDR ≤ h.brk
  small : total h.granted < HDR * 2 ^ 32

namespace Inv

variable {base : Nat} {h : Heap} {blocks used : List Extent}

theorem has_start (full : 0 < e.len) : e.Has HDR e.start := by
  simp only [Has, stop, HDR]
  omega

section

variable (inv : Inv base h blocks used)
include inv

/-- A block lies in the memory granted. -/
theorem inside {x : Nat} (there : e ∈ blocks ∨ e ∈ used) (has : e.Has HDR x) :
    base + HDR ≤ x ∧ x < h.brk := by
  refine inv.within x ?_
  have := inv.covers x
  rcases there with free | inUse
  · have : 0 < cover HDR blocks x := cover_pos.mpr ⟨e, free, has⟩
    omega
  · have : 0 < cover HDR used x := cover_pos.mpr ⟨e, inUse, has⟩
    omega

/-- The free blocks and the blocks in use lie apart. -/
theorem apart {c : Extent} (free : c ∈ blocks) (inUse : e ∈ used) :
    c.stop HDR ≤ e.start ∨ e.stop HDR ≤ c.start := by
  refine apart_of_cover (fun x => ?_) free inUse (Nat.mul_pos (by decide) (inv.ring.full c free))
    (Nat.mul_pos (by decide) (inv.full e inUse))
  rw [inv.covers]
  exact inv.once x

/-- The header of a block in use is not on the ring. -/
theorem not_node (inUse : e ∈ used) : e.start ∉ (nodes base blocks).map start := by
  intro there
  obtain ⟨c, onRing, same⟩ := List.mem_map.mp there
  have full := inv.full e inUse
  rcases List.mem_cons.mp onRing with rfl | free
  · have := (inv.inside (.inr inUse) (has_start full)).1
    simp only [HDR] at this same
    omega
  · have := inv.ring.full c free
    have := inv.apart free inUse
    simp only [stop, HDR] at this
    omega

theorem total_lt : total blocks + total used < 2 ^ 32 := by
  have sum := inv.sum
  have small := inv.small
  simp only [HDR] at sum small
  omega

theorem freep_pos : h.freep ≠ 0 := by
  obtain ⟨e, there, is⟩ := List.mem_map.mp inv.on
  rw [← is]
  have pos := inv.room.1
  rcases List.mem_cons.mp there with rfl | free
  · exact Nat.ne_of_gt pos
  · have := (inv.inside (.inl free) (has_start (inv.ring.full e free))).1
    omega

/-- The same memory, cut into free blocks and blocks in use in another way. -/
theorem recut {blocks' used' : List Extent} (ring : Ring base h'.mem blocks')
    (on : h'.freep ∈ (nodes base blocks').map start)
    (covers : ∀ x, cover HDR blocks' x + cover HDR used' x = cover HDR blocks x + cover HDR used x)
    (sum : total blocks' + total used' = total blocks + total used)
    (used : ∀ e ∈ used', (h'.mem e.start).size = e.len ∧ 0 < e.len) (brk : h'.brk = h.brk)
    (granted : h'.granted = h.granted) :
    Inv base h' blocks' used' := by
  refine ⟨⟨ring, fun x => ?_, ?_, ?_⟩, on, fun e there => (used e there).1, fun e there => (used e there).2, ?_, ?_, ?_⟩
  · rw [covers, granted]
    exact inv.covers x
  · rw [granted]
    exact inv.once
  · rw [sum, granted]
    exact inv.sum
  · rw [granted, brk]
    exact inv.within
  · rw [brk]
    exact inv.room
  · rw [granted]
    exact inv.small

end

/-- **`free` keeps the heap well formed.** -/
theorem free {before after : List Extent} {b : Extent} (inv : Inv base h blocks (before ++ b :: after)) :
    ∃ h' blocks', Ends (fun fuel => free fuel h (b.start + HDR)) h' ∧ Inv base h' blocks' (before ++ after) ∧
      (∃ e ∈ blocks', b.len ≤ e.len) ∧ h'.allocated = h.allocated ∧ h'.granted = h.granted := by
  have inUse : b ∈ before ++ b :: after := by simp
  have fullB := inv.full b inUse
  have above : base < b.start := by
    have := (inv.inside (.inr inUse) (has_start fullB)).1
    simp only [HDR] at this
    omega
  have limit := inv.total_lt
  simp only [total_append, total_cons] at limit
  obtain ⟨h', blocks', ends, freed⟩ := inv.ring.free inv.on (inv.sizes b inUse) fullB above
    (fun c free => inv.apart free inUse) (by omega)
  have fewer : ∀ e ∈ before ++ after, e ∈ before ++ b :: after := by
    intro e
    simp only [List.mem_append, List.mem_cons]
    tauto
  -- the other blocks in use start elsewhere
  have elsewhere : ∀ e ∈ before ++ after, e.start ≠ b.start := by
    intro e there same
    have covers := inv.covers b.start
    have once := inv.once b.start
    have left : 0 < cover HDR (before ++ after) b.start :=
      cover_pos.mpr ⟨e, there, same ▸ has_start (inv.full e (fewer e there))⟩
    simp only [cover_append, cover_cons, if_pos (has_start fullB)] at covers left
    omega
  refine ⟨h', blocks', ends, inv.recut freed.ring freed.on (fun x => ?_) ?_ (fun e there =>
    ⟨?_, ?_⟩) freed.brk freed.granted,
    freed.room, freed.allocated, freed.granted⟩
  · rw [freed.cover]
    simp only [cover_append, cover_cons]
    omega
  · rw [freed.total]
    simp only [total_append, total_cons]
    omega
  · rw [freed.frame _ (elsewhere e there) (inv.not_node (fewer e there))]
    exact inv.sizes e (fewer e there)
  · exact inv.full e (fewer e there)

section

variable (inv : Inv base h blocks used)
include inv

variable {n : Nat}

/-- Taking from a block of the ring keeps the heap well formed. -/
theorem take
    (parts : nodes base blocks = front ++ a :: e :: post) (fits : n ≤ e.len) (some' : 0 < n) :
    ∃ r h' blocks', take h n a.start e.start = (h', r.start + HDR) ∧ r.len = n ∧ Inv base h' blocks' (r :: used) ∧
      h'.allocated = h.allocated := by
  obtain ⟨r, h', blocks', is, taken⟩ := inv.ring.take parts fits some'
  have fullR : 0 < r.len := by
    rw [taken.len]
    exact some'
  have elsewhere : ∀ d ∈ used, d.start ≠ r.start := by
    intro d there same
    have cover := taken.cover r.start
    have covers := inv.covers r.start
    have once := inv.once r.start
    have left : 0 < Extent.cover HDR used r.start := cover_pos.mpr ⟨d, there, same ▸ has_start (inv.full d there)⟩
    simp only [cover_cons, if_pos (has_start fullR)] at cover
    omega
  refine ⟨r, h', blocks', is, taken.len,
    inv.recut taken.ring taken.on (fun x => ?_) ?_ (fun d there => ?_) taken.brk taken.granted,
    taken.allocated⟩
  · have cover := taken.cover x
    simp only [cover_cons] at cover ⊢
    omega
  · rw [total_cons, taken.len, ← taken.total]
    omega
  · rcases List.mem_cons.mp there with rfl | there
    · exact ⟨by rw [taken.size, taken.len], fullR⟩
    · rw [taken.frame _ (elsewhere d there) (inv.not_node there)]
      exact ⟨inv.sizes d there, inv.full d there⟩

/-- The memory `sbrk` grants starts as a block in use. -/
theorem grant {nu : Nat} (fresh : h.brk ≤ p) (some' : 0 < nu)
    (small : total h.granted + HDR * nu < HDR * 2 ^ 32) :
    Inv base (grant h p (HDR * nu : Nat) nu) blocks (⟨p, nu⟩ :: used) := by
  have room := inv.room
  have other : ∀ x < h.brk, (Umalloc.grant h p (HDR * nu : Nat) nu).mem x = h.mem x := by
    intro x inOld
    exact update_of_ne (by omega) _ _
  have nodeOld : ∀ e ∈ nodes base blocks, e.start < h.brk := by
    intro e onRing
    rcases List.mem_cons.mp onRing with rfl | free
    · change base < h.brk
      simp only [HDR] at room
      omega
    · exact (inv.inside (.inl free) (has_start (inv.ring.full e free))).2
  have untouched : ∀ x, h.brk ≤ x → cover 1 h.granted x = 0 := by
    intro x beyond
    by_contra some'
    have := (inv.within x (Nat.pos_of_ne_zero some')).2
    omega
  have same : ∀ x, (if Has HDR ⟨p, nu⟩ x then 1 else 0) = if Has 1 ⟨p, HDR * nu⟩ x then 1 else 0 := by
    intro x
    have iff : Has HDR ⟨p, nu⟩ x ↔ Has 1 ⟨p, HDR * nu⟩ x := by simp only [Has, stop, Nat.one_mul]
    simp only [iff]
  have granted : (Umalloc.grant h p (HDR * nu : Nat) nu).granted = ⟨p, HDR * nu⟩ :: h.granted := rfl
  constructor
  case toShape =>
    constructor
    case ring =>
      constructor
      case links =>
        refine inv.ring.links.congr ?_
        intro a there
        obtain ⟨e, onRing, rfl⟩ := List.mem_map.mp there
        rw [other _ (nodeOld e onRing)]
      case sizes =>
        intro e onRing
        rw [other _ (nodeOld e onRing)]
        exact inv.ring.sizes e onRing
      case spread => exact inv.ring.spread
      case full => exact inv.ring.full
    case covers =>
      intro x
      have covers := inv.covers x
      rw [granted, cover_cons, cover_cons, same]
      omega
    case once =>
      intro x
      have once := inv.once x
      rw [granted, cover_cons]
      by_cases has : Has 1 ⟨p, HDR * nu⟩ x
      · rw [untouched x (Nat.le_trans fresh has.1), if_pos has]
      · rw [if_neg has]
        exact once
    case sum =>
      have sum := inv.sum
      rw [granted, total_cons, total_cons]
      simp only [Nat.mul_add] at sum ⊢
      omega
  case on => exact inv.on
  case sizes =>
    intro e there
    rcases List.mem_cons.mp there with rfl | there
    · simp only [Umalloc.grant, update_self]
    · rw [other _ (inv.inside (.inr there) (has_start (inv.full e there))).2]
      exact inv.sizes e there
  case full =>
    intro e there
    rcases List.mem_cons.mp there with rfl | there
    · exact some'
    · exact inv.full e there
  case within =>
    intro x pos
    rw [granted, cover_cons] at pos
    change _ ∧ x < p + HDR * nu
    by_cases has : Has 1 ⟨p, HDR * nu⟩ x
    · simp only [Has, stop, Nat.one_mul] at has
      omega
    · rw [if_neg has, Nat.add_zero] at pos
      have := inv.within x pos
      omega
  case room =>
    change 0 < base ∧ base + HDR ≤ p + HDR * nu
    omega
  case small =>
    rw [granted, total_cons]
    change HDR * nu + total h.granted < _
    omega

/-- **`morecore`** fails and changes nothing, or leaves a free block of the size asked for. -/
theorem morecore
    (fresh : ∀ brk k p, 0 ≤ k → sbrk brk k = some p → brk ≤ p) (int : HDR * max MINCORE n < 2 ^ 31)
    (small : total h.granted + HDR * max MINCORE n < HDR * 2 ^ 32) :
    ∃ h' p, Ends (fun fuel => morecore sbrk fuel h n) (h', p) ∧ h'.allocated = h.allocated ∧
      (p = 0 ∧ h' = h ∨ p ≠ 0 ∧ p = h'.freep ∧ ∃ blocks', Inv base h' blocks' used ∧ ∃ e ∈ blocks', n ≤ e.len) := by
  have isMax : (if n < MINCORE then MINCORE else n) = max MINCORE n := by
    split <;> omega
  have amount : toInt (max MINCORE n * HDR) = (HDR * max MINCORE n : Nat) := by
    have low : uint (max MINCORE n * HDR) = HDR * max MINCORE n := by
      rw [uint, Nat.mul_comm, Nat.mod_eq_of_lt (Nat.lt_trans int (by decide))]
    rw [toInt, low, if_pos int]
  cases answer : sbrk h.brk (HDR * max MINCORE n : Nat) with
  | none =>
    refine ⟨h, 0, ?_, rfl, .inl ⟨rfl, rfl⟩⟩
    simp only [Umalloc.morecore, isMax, amount, answer]
    exact Ends.pure _
  | some p =>
    have pos : 0 < max MINCORE n := Nat.lt_of_lt_of_le (by decide) (Nat.le_max_left _ _)
    have granted : Inv base _ blocks ([] ++ ⟨p, max MINCORE n⟩ :: used) :=
      inv.grant (fresh _ _ _ (Int.natCast_nonneg _) answer) pos small
    obtain ⟨h', blocks', ends, inv', ⟨e, there, more⟩, allocated, -⟩ := granted.free
    refine ⟨h', h'.freep, ?_, allocated, .inr ⟨inv'.freep_pos, rfl, blocks', inv', e, there, ?_⟩⟩
    · simp only [Umalloc.morecore, isMax, amount, answer, Option.map_eq_bind]
      exact ends.bind (Ends.pure _)
    · exact Nat.le_trans (Nat.le_max_right _ _) more

/-- What a call of `malloc` for `n` headers comes to. -/
def Served (base : Nat) (h : Heap) (used : List Extent) (n : Nat) (h' : Heap) (p : Nat) : Prop :=
  h'.allocated = h.allocated ∧
    ((p = 0 ∧ ∃ blocks', Inv base h' blocks' used) ∨
      ∃ r blocks', p = r.start + HDR ∧ r.len = n ∧ Inv base h' blocks' (r :: used))

theorem served (some' : 0 < n)
    (fits : Fits base sbrk n h blocks prevp p) :
    ∃ h' q, Ends (fun fuel => mallocFrom sbrk n fuel h prevp p) (h', q) ∧ Served base h used n h' q := by
  obtain ⟨front, a, e, post, parts, fits, ends⟩ := fits
  obtain ⟨r, h', blocks', is, len, inv', allocated⟩ := inv.take parts fits some'
  exact ⟨h', r.start + HDR, is ▸ ends, allocated, .inr ⟨r, blocks', rfl, len, inv'⟩⟩

/-- **The loop of `malloc` ends**, with a block of the size asked for or with 0. -/
theorem mallocFrom (some' : 0 < n)
    (fresh : ∀ brk k p, 0 ≤ k → sbrk brk k = some p → brk ≤ p) (int : HDR * max MINCORE n < 2 ^ 31)
    (small : total h.granted + HDR * max MINCORE n < HDR * 2 ^ 32) :
    ∃ h' q, Ends (fun fuel => mallocFrom sbrk n fuel h h.freep (h.mem h.freep).ptr) (h', q) ∧
    Served base h used n h' q := by
  rcases scan sbrk inv.ring inv.on some' with fits | ⟨-, round⟩
  · exact inv.served some' fits
  obtain ⟨h1, p, ends, allocated, ⟨rfl, rfl⟩ | ⟨notNull, isFreep, blocks1, inv1, e, there, more⟩⟩ :=
    inv.morecore fresh int small
  · refine ⟨h1, 0, round _ ?_, rfl, .inl ⟨rfl, blocks, inv⟩⟩
    exact ends.bind (Ends.pure _)
  · -- the block that `morecore` left is large enough, so the second round finds one
    rcases scan sbrk inv1.ring inv1.on some' with fits | ⟨none', -⟩
    · obtain ⟨h2, q, ends', allocated', out⟩ := inv1.served some' fits
      refine ⟨h2, q, round _ (ends.bind ?_), allocated'.trans allocated, out⟩
      subst isFreep
      simp only [if_neg notNull]
      exact ends'
    · exact absurd more (Nat.not_le.mpr (none' e there))

end

/-- The first call of `malloc` makes a ring of the base alone. -/
theorem first (fresh : h.granted = []) (pos : 0 < base) (room : base + HDR ≤ h.brk) :
    Inv base { h with mem := update h.mem base ⟨base, 0⟩, freep := base } [] [] where
  ring := {
    links := links_cons.mpr ⟨by simp, List.isChain_singleton _⟩
    sizes := by
      intro e there
      simp [List.mem_singleton.mp there]
    spread := List.pairwise_singleton _ _
    full := by simp }
  covers := by simp [fresh, cover]
  once := by simp [fresh, cover]
  sum := by simp [fresh, total]
  on := List.mem_cons_self
  sizes := by simp
  full := by simp
  within := by simp [fresh, cover]
  room := ⟨pos, room⟩
  small := by simp [fresh, total]

/-- Stores into blocks in use leave the headers alone. -/
theorem store (inv : Inv base h blocks used)
    (own : ∀ x, mem x ≠ h.mem x → ∃ e ∈ used, e.start + HDR ≤ x ∧ x < e.stop HDR) :
    Inv base { h with mem := mem } blocks used := by
  -- an address in the body of a block in use is not the start of any block
  have header : ∀ x, x ∈ (nodes base blocks).map start ∨ x ∈ used.map start → mem x = h.mem x := by
    intro x starts
    by_contra changed
    obtain ⟨e, inUse, low, high⟩ := own x changed
    have has : e.Has HDR x := ⟨by omega, high⟩
    have once := inv.once x
    rw [← inv.covers] at once
    have counted : 0 < cover HDR used x := cover_pos.mpr ⟨e, inUse, has⟩
    rcases starts with onRing | starts
    · obtain ⟨c, node, rfl⟩ := List.mem_map.mp onRing
      rcases List.mem_cons.mp node with rfl | free
      · have := (inv.inside (.inr inUse) has).1
        simp only [HDR] at this
        omega
      · have : 0 < cover HDR blocks c.start := cover_pos.mpr ⟨c, free, has_start (inv.ring.full c free)⟩
        omega
    · obtain ⟨d, inUse', rfl⟩ := List.mem_map.mp starts
      obtain ⟨before, after, parts⟩ := List.append_of_mem inUse
      rw [parts] at inUse' once
      simp only [cover_append, cover_cons, if_pos has] at once
      -- `e` is one block that holds the address, so `d` is `e`, which starts lower
      have same : d = e := by
        by_contra other
        have : 0 < cover HDR (before ++ after) d.start := by
          refine cover_pos.mpr ⟨d, ?_, has_start (inv.full d (parts ▸ inUse'))⟩
          simp only [List.mem_append, List.mem_cons] at inUse' ⊢
          tauto
        rw [cover_append] at this
        omega
      rw [same, HDR] at low
      omega
  obtain ⟨⟨⟨links, sizes, spread, full⟩, covers, once, sum⟩, on, sizesUsed, fullUsed, within, room, small⟩ := inv
  refine ⟨⟨⟨links.congr ?_, ?_, spread, full⟩, covers, once, sum⟩, on, ?_, fullUsed, within, room, small⟩
  · intro p there
    exact congrArg Header.ptr (header p (.inl there))
  · intro e there
    have same := header e.start (.inl (List.mem_map_of_mem there))
    exact (congrArg Header.size same).trans (sizes e there)
  · intro e there
    have same := header e.start (.inr (List.mem_map_of_mem there))
    exact (congrArg Header.size same).trans (sizesUsed e there)

end Inv

/-! ## Runs of calls -/

/-- What a program does with its heap: the two calls, with the answers of `sbrk` during a
`malloc`, and stores into memory. -/
inductive Call where
  | malloc (nbytes : UInt32) (sbrk : Sbrk)
  | free (ap : Nat)
  | store (mem : Nat → Header)

def call (base fuel : Nat) (h : Heap) : Call → Option Heap
  | .malloc nbytes sbrk =>
    (malloc base sbrk fuel h nbytes).map fun (h, p) =>
      if p = 0 then h else { h with allocated := ⟨p - HDR, units nbytes⟩ :: h.allocated }
  | .free ap => (free fuel h ap).map fun h => { h with allocated := h.allocated.eraseP fun e => e.start + HDR = ap }
  | .store mem => some { h with mem := mem }

/-- `sbrk` fails or grants what it is asked for above the memory granted before; what is freed
is allocated; the program stores into its blocks only. -/
def Allowed (h : Heap) : Call → Prop
  | .malloc _ sbrk => ∀ brk k p, sbrk brk k = some p → 0 ≤ k ∧ brk ≤ p
  | .free ap => ∃ e ∈ h.allocated, e.start + HDR = ap
  | .store mem => ∀ x, mem x ≠ h.mem x → ∃ e ∈ h.allocated, e.start + HDR ≤ x ∧ x < e.stop HDR

/-- The request fits in the `int` that `sbrk` takes, and the number of headers in all the
memory granted fits in an `unsigned int`. -/
def Modest (h : Heap) : Call → Prop
  | .malloc nbytes _ =>
    HDR * max MINCORE (units nbytes) < 2 ^ 31 ∧ total h.granted + HDR * max MINCORE (units nbytes) < HDR * 2 ^ 32
  | _ => True

/-- The heap of a program that has not called `malloc` yet; the base lies below its memory. -/
structure Unused (base : Nat) (h : Heap) : Prop where
  freep : h.freep = 0
  granted : h.granted = []
  allocated : h.allocated = []
  base_pos : 0 < base
  room : base + HDR ≤ h.brk

inductive Reach (base : Nat) (ok : Heap → Call → Prop) (h₀ : Heap) : Heap → Prop
  | start : Reach base ok h₀ h₀
  | call {h h' : Heap} {c : Call} (reach : Reach base ok h₀ h) (allowed : ok h c)
      (ends : Ends (fun fuel => call base fuel h c) h') : Reach base ok h₀ h'

/-- The call ended and its result, if it is not 0, is the body of a new block with room for
`nbytes`. -/
def Gives (base : Nat) (h : Heap) (nbytes : UInt32) (h' : Heap) (p : Nat) : Prop :=
  p ≠ 0 → ∃ r blocks, p = r.start + HDR ∧ p + nbytes.toNat ≤ r.stop HDR ∧ Shape base h' blocks (r :: h.allocated)

section Calls

variable {base : Nat} {h : Heap}

/-- No call yet, or a well-formed heap. -/
def Good (base : Nat) (h : Heap) : Prop := Unused base h ∨ ∃ blocks, Inv base h blocks h.allocated

theorem units_eq (nbytes : UInt32) : units nbytes = (nbytes.toNat + HDR - 1) / HDR + 1 := by
  have := nbytes.toNat_lt
  refine Nat.mod_eq_of_lt ?_
  simp only [HDR]
  omega

theorem Good.malloc {nbytes : UInt32} (good : Good base h) (fresh : ∀ brk k p, 0 ≤ k → sbrk brk k = some p → brk ≤ p)
    (modest : Modest h (.malloc nbytes sbrk)) :
    ∃ h' p, Ends (fun fuel => malloc base sbrk fuel h nbytes) (h', p) ∧
    Inv.Served base h h.allocated (units nbytes) h' p := by
  have pos : 0 < units nbytes := by
    rw [units_eq]
    exact Nat.succ_pos _
  rcases good with unused | ⟨blocks, inv⟩
  · have inv := Inv.first unused.granted unused.base_pos unused.room
    obtain ⟨h', p, ends, served⟩ := inv.mallocFrom pos fresh modest.1 modest.2
    refine ⟨h', p, ?_, unused.allocated ▸ served⟩
    simp only [Umalloc.malloc, if_pos unused.freep]
    exact ends
  · obtain ⟨h', p, ends, served⟩ := inv.mallocFrom pos fresh modest.1 modest.2
    refine ⟨h', p, ?_, served⟩
    simp only [Umalloc.malloc, if_neg inv.freep_pos]
    exact ends

theorem Good.free {ap : Nat} (good : Good base h) (allowed : Allowed h (.free ap)) :
    ∃ h' blocks, Ends (fun fuel => free fuel h ap) h' ∧ h'.allocated = h.allocated ∧
      Inv base h' blocks (h.allocated.eraseP fun e => e.start + HDR = ap) := by
  obtain ⟨e, there, is⟩ := allowed
  rcases good with unused | ⟨blocks, inv⟩
  · rw [unused.allocated] at there
    cases there
  · obtain ⟨b, before, after, -, isB, parts, erased⟩ :=
      List.exists_of_eraseP (p := fun e : Extent => e.start + HDR = ap) there (by simpa using is)
    rw [parts] at inv
    obtain ⟨h', blocks', ends, inv', -, allocated, -⟩ := inv.free
    rw [of_decide_eq_true isB] at ends
    exact ⟨h', blocks', ends, allocated, erased ▸ inv'⟩

theorem Good.call_malloc {nbytes : UInt32} (good : Good base h)
    (fresh : ∀ brk k p, 0 ≤ k → sbrk brk k = some p → brk ≤ p) (modest : Modest h (.malloc nbytes sbrk))
    (ends : Ends (fun fuel => Umalloc.call base fuel h (.malloc nbytes sbrk)) h') : Good base h' := by
  obtain ⟨h1, p, ends1, allocated, out⟩ := good.malloc fresh modest
  have after := ends1.bind (f := fun _ (h, p) =>
    some (if p = 0 then h else { h with allocated := ⟨p - HDR, units nbytes⟩ :: h.allocated })) (Ends.pure _)
  simp only [Umalloc.call, Option.map_eq_bind] at ends
  rw [ends.unique after]
  right
  rcases out with ⟨rfl, blocks, inv⟩ | ⟨r, blocks, rfl, len, inv⟩
  · exact ⟨blocks, by simpa [allocated] using inv⟩
  · refine ⟨blocks, ?_⟩
    have is : (⟨r.start + HDR - HDR, units nbytes⟩ : Extent) = r := by rw [Nat.add_sub_cancel, ← len]
    rw [if_neg (by simp only [HDR]; omega)]
    simp only [is, allocated]
    exact { inv with }

theorem Good.call {c : Call} (good : Good base h) (allowed : Allowed h c) (modest : Modest h c)
    (ends : Ends (fun fuel => call base fuel h c) h') : Good base h' := by
  cases c with
  | malloc nbytes sbrk => exact good.call_malloc (fun brk k p _ is => (allowed brk k p is).2) modest ends
  | free ap =>
    obtain ⟨h1, blocks, ends1, allocated, inv⟩ := good.free allowed
    have after := ends1.bind (f := fun _ h =>
      some { h with allocated := h.allocated.eraseP fun e => e.start + HDR = ap }) (Ends.pure _)
    simp only [Umalloc.call, Option.map_eq_bind] at ends
    rw [ends.unique after]
    refine .inr ⟨blocks, ?_⟩
    rw [allocated]
    exact { inv with }
  | store mem =>
    rw [ends.unique (Ends.pure _)]
    rcases good with unused | ⟨blocks, inv⟩
    · exact .inl { unused with }
    · exact .inr ⟨blocks, inv.store allowed⟩

theorem Reach.good {h₀ : Heap} (unused : Unused base h₀)
    (reach : Reach base (fun h c => Allowed h c ∧ Modest h c) h₀ h) :
    Good base h := by
  induction reach with
  | start => exact .inl unused
  | call _ allowed ends ih => exact ih.call allowed.1 allowed.2 ends

/-- A block of that many headers has room for the bytes after its own header. -/
theorem room_units (nbytes : UInt32) : HDR + nbytes.toNat ≤ HDR * units nbytes := by
  rw [units_eq]
  simp only [HDR]
  omega

/-- **The heap stays coalesced and complete.** After any calls by a program that frees only
what is allocated, each request small enough for the `int` that `sbrk` takes: the free blocks
stand on the ring in address order, apart from each other and from the blocks in use, and
with these make up exactly the memory granted; and the next call ends, `malloc` with 0 or
with room for what was asked. -/
theorem heap_discipline {h₀ : Heap} (unused : Unused base h₀)
    (reach : Reach base (fun h c => Allowed h c ∧ Modest h c) h₀ h) :
    (Unused base h ∨ ∃ blocks, Shape base h blocks h.allocated ∧ h.freep ∈ (nodes base blocks).map start) ∧
      (∀ nbytes sbrk, Allowed h (.malloc nbytes sbrk) → Modest h (.malloc nbytes sbrk) →
        ∃ h' p, Ends (fun fuel => malloc base sbrk fuel h nbytes) (h', p) ∧ Gives base h nbytes h' p) ∧
      ∀ ap, Allowed h (.free ap) → ∃ h', Ends (fun fuel => free fuel h ap) h' := by
  have good := reach.good unused
  refine ⟨?_, ?_, ?_⟩
  · rcases good with unused | ⟨blocks, inv⟩
    · exact .inl unused
    · exact .inr ⟨blocks, inv.toShape, inv.on⟩
  · intro nbytes sbrk allowed modest
    obtain ⟨h', p, ends, -, out⟩ := good.malloc (fun brk k p _ is => (allowed brk k p is).2) modest
    refine ⟨h', p, ends, ?_⟩
    intro notNull
    rcases out with ⟨null, -⟩ | ⟨r, blocks, is, len, inv⟩
    · exact absurd null notNull
    · have fits := room_units nbytes
      refine ⟨r, blocks, is, ?_, inv.toShape⟩
      rw [is, stop, len]
      omega
  · intro ap allowed
    obtain ⟨h', -, ends, -⟩ := good.free allowed
    exact ⟨h', ends⟩

end Calls

/-- An `sbrk` that always grants, right above the memory granted before. -/
def grants : Sbrk := fun brk k => if 0 ≤ k then some brk else none

/-- A program's heap before its first call. -/
def untouched : Heap := { mem := fun _ => ⟨0, 0⟩, freep := 0, brk := 4096, granted := [], allocated := [] }

theorem untouched_unused : Unused 64 untouched := ⟨rfl, rfl, rfl, by decide, by decide⟩

theorem grants_allowed (h : Heap) (nbytes : UInt32) : Allowed h (.malloc nbytes grants) := by
  intro brk k p granted
  unfold grants at granted
  split at granted
  · cases granted
    exact ⟨by assumption, Nat.le_refl _⟩
  · cases granted

/-- A program gets blocks of 100 and of 200 bytes and frees the first; its next block has room for
50. -/
theorem heap_discipline_sample : ∃ h, Reach 64 (fun h c => Allowed h c ∧ Modest h c) untouched h ∧
    h.allocated.length = 1 ∧
    ∃ h' p, Ends (fun fuel => malloc 64 grants fuel h 50) (h', p) ∧ p ≠ 0 ∧ Gives 64 h 50 h' p := by
  obtain ⟨h₁, h₂, h, r, one, two, three, four, modest, modest', modest'', mine, block, left⟩ : ∃ h₁ h₂ h r,
      (∀ k, call 64 (k + 4) untouched (.malloc 100 grants) = some h₁) ∧
        (∀ k, call 64 (k + 4) h₁ (.malloc 200 grants) = some h₂) ∧
      (∀ k, call 64 (k + 4) h₂ (.free 69520) = some h) ∧ (∀ k, malloc 64 grants (k + 4) h 50 = some r) ∧
      Modest untouched (.malloc 100 grants) ∧ Modest h₁ (.malloc 200 grants) ∧ Modest h (.malloc 50 grants) ∧
      Allowed h₂ (.free 69520) ∧ r.2 ≠ 0 ∧ h.allocated.length = 1 :=
    ⟨_, _, _, _, fun _ => rfl, fun _ => rfl, fun _ => rfl, fun _ => rfl, ⟨by decide, by decide⟩,
      ⟨by decide, by decide⟩, ⟨by decide, by decide⟩,
      (by decide : ∃ e ∈ _, _ = _), by decide, rfl⟩
  have reach : Reach 64 (fun h c => Allowed h c ∧ Modest h c) untouched h :=
    .call (c := .free 69520) (.call (.call .start ⟨grants_allowed _ _, modest⟩ (.after 4 one))
      ⟨grants_allowed _ _, modest'⟩ (.after 4 two)) ⟨mine, trivial⟩ (.after 4 three)
  obtain ⟨h', p, ends, gives⟩ := (heap_discipline untouched_unused reach).2.1 50 grants (grants_allowed _ _) modest''
  obtain rfl := ends.unique (.after 4 four)
  exact ⟨h, reach, left, h', p, ends, block, gives⟩

/-- `malloc(0xffffffff)` asks `sbrk` for 2^32 + 16 bytes, which as an `int` is 16: it gets 16
bytes, and returns the address after them as a block of 2^28 + 1 headers. -/
theorem malloc_wraps_request : ∃ h' p, Allowed untouched (.malloc 0xffffffff grants) ∧
    Ends (fun fuel => malloc 64 grants fuel untouched 0xffffffff) (h', p) ∧
      p ≠ 0 ∧ h'.granted = [⟨4096, 16⟩] ∧ p = 4096 + 16 ∧ (h'.mem (p - HDR)).size = 2 ^ 28 + 1 ∧
      ¬ Gives 64 untouched 0xffffffff h' p := by
  have run : ∃ r, (∀ k, malloc 64 grants (k + 4) untouched 0xffffffff = some r) ∧
      r.2 = 4096 + 16 ∧ r.1.granted = [⟨4096, 16⟩] ∧ (r.1.mem 4096).size = 2 ^ 28 + 1 :=
    ⟨_, fun k => rfl, rfl, rfl, rfl⟩
  obtain ⟨⟨h', p⟩, run, is, granted, size⟩ := run
  have ends : Ends (fun fuel => malloc 64 grants fuel untouched 0xffffffff) (h', p) := .after 4 run
  simp only at is granted size
  subst is
  refine ⟨h', _, grants_allowed _ _, ends, by decide, granted, rfl, size, ?_⟩
  intro gives
  obtain ⟨r, blocks, is, room, shape⟩ := gives (by decide)
  have sum := shape.sum
  rw [granted] at sum
  have wide : (0xffffffff : UInt32).toNat = 4294967295 := rfl
  rw [wide] at room
  simp only [stop, HDR, total_cons] at sum is room
  simp only [total, List.map_nil, List.sum_nil] at sum is room
  omega

end Xv6.User.Umalloc
