/-
# Kernel.Bio -- bio.c: the buffer cache

`Bcache` is `bcache`: `NBUF` buffers and the order in which following `next` from
`bcache.head` visits them.  `bget`, `unref` (the end of `brelse`), `bpin` and
`bunpin` are its critical sections under `bcache.lock`; `holder` is the owner of a
buffer's sleep-lock.
-/
import Xv6.Kernel.Log

namespace Xv6.Kernel

set_option autoImplicit false

/-- `struct buf`; `ι` names the processes. -/
structure Buf (ι : Type) where
  valid : Bool
  dev : Nat
  blockno : Nat
  refcnt : Nat
  data : Block
  holder : Option ι

/-- `refcnt--`, of a `uint`. -/
def Buf.decr {ι : Type} (b : Buf ι) : Buf ι := { b with refcnt := if b.refcnt = 0 then 2 ^ 32 - 1 else b.refcnt - 1 }

theorem Buf.decr_refcnt {ι : Type} {b : Buf ι} (used : 0 < b.refcnt) : b.decr.refcnt = b.refcnt - 1 :=
  if_neg (Nat.ne_of_gt used)

structure Bcache (ι : Type) where
  buf : Fin NBUF → Buf ι
  lru : List (Fin NBUF)

namespace Bcache

variable {ι : Type}

/-- `binit`: every buffer is inserted behind the head. -/
def binit : Bcache ι where
  buf := fun _ => ⟨false, 0, 0, 0, Block.zero, none⟩
  lru := (List.finRange NBUF).reverse

def setBuf (c : Bcache ι) (i : Fin NBUF) (b : Buf ι) : Bcache ι :=
  { c with buf := Function.update c.buf i b }

/-- Is buffer `i` assigned to block `b` of `dev`? -/
def Tagged (c : Bcache ι) (dev b : Nat) (i : Fin NBUF) : Prop :=
  (c.buf i).dev = dev ∧ (c.buf i).blockno = b

instance (c : Bcache ι) (dev b : Nat) (i : Fin NBUF) : Decidable (c.Tagged dev b i) :=
  inferInstanceAs (Decidable (_ ∧ _))

/-- The first scan of `bget`: is the block already cached? -/
def lookup (c : Bcache ι) (dev b : Nat) : Option (Fin NBUF) :=
  c.lru.find? fun i => decide (c.Tagged dev b i)

/-- The second scan of `bget`: the least recently used unused buffer. -/
def victim (c : Bcache ι) : Option (Fin NBUF) :=
  c.lru.reverse.find? fun i => decide ((c.buf i).refcnt = 0)

/-- `bget` up to the sleep-lock; `none` is the panic. -/
def bget (c : Bcache ι) (dev b : Nat) : Option (Fin NBUF × Bcache ι) :=
  match c.lookup dev b with
  | some i => some (i, c.setBuf i { c.buf i with refcnt := (c.buf i).refcnt + 1 })
  | none =>
    match c.victim with
    | some i =>
      some (i, c.setBuf i { c.buf i with dev := dev, blockno := b, valid := false, refcnt := 1 })
    | none => none

/-- `brelse` after the sleep-lock is released: an unused buffer moves to the front. -/
def unref (c : Bcache ι) (i : Fin NBUF) : Bcache ι :=
  let c := c.setBuf i (c.buf i).decr
  if (c.buf i).refcnt = 0 then { c with lru := i :: c.lru.erase i } else c

def bpin (c : Bcache ι) (i : Fin NBUF) : Bcache ι :=
  c.setBuf i { c.buf i with refcnt := (c.buf i).refcnt + 1 }

def bunpin (c : Bcache ι) (i : Fin NBUF) : Bcache ι := c.setBuf i (c.buf i).decr

@[simp] theorem setBuf_self (c : Bcache ι) (i : Fin NBUF) (b : Buf ι) : (c.setBuf i b).buf i = b :=
  Function.update_self _ _ _

variable {i j : Fin NBUF} {b : Nat} {x : Buf ι}

theorem setBuf_of_ne (c : Bcache ι) (b : Buf ι) (ne : j ≠ i) :
    (c.setBuf i b).buf j = c.buf j :=
  Function.update_of_ne ne _ _

@[simp] theorem setBuf_eq_self (c : Bcache ι) (i : Fin NBUF) : c.setBuf i (c.buf i) = c := by
  simp [setBuf]

/-- Everything `bget` can do when every buffer is on the list. -/
theorem bget_cases {c c' : Bcache ι} {dev : Nat} (complete : ∀ j, j ∈ c.lru)
    (got : c.bget dev b = some (i, c')) :
    (c.Tagged dev b i ∧ c' = c.setBuf i { c.buf i with refcnt := (c.buf i).refcnt + 1 }) ∨
      ((∀ j, ¬ c.Tagged dev b j) ∧ (c.buf i).refcnt = 0 ∧
        c' = c.setBuf i { c.buf i with dev := dev, blockno := b, valid := false, refcnt := 1 }) := by
  unfold bget at got
  cases found : c.lookup dev b with
  | some j =>
    rw [found] at got
    simp only [Option.some.injEq, Prod.mk.injEq] at got
    obtain ⟨rfl, rfl⟩ := got
    exact .inl ⟨by simpa using List.find?_some found, rfl⟩
  | none =>
    have absent : ∀ j, ¬ c.Tagged dev b j := by
      intro j
      simpa using List.find?_eq_none.mp found j (complete j)
    rw [found] at got
    cases free : c.victim with
    | none => rw [free] at got; cases got
    | some j =>
      rw [free] at got
      simp only [Option.some.injEq, Prod.mk.injEq] at got
      obtain ⟨rfl, rfl⟩ := got
      exact .inr ⟨absent, by simpa using List.find?_some free, rfl⟩

/-- `bget` panics only when the block is not cached and every buffer is in use. -/
theorem bget_eq_none {c : Bcache ι} {dev : Nat} (complete : ∀ j, j ∈ c.lru)
    (failed : c.bget dev b = none) : ∀ j, ¬ c.Tagged dev b j ∧ (c.buf j).refcnt ≠ 0 := by
  unfold bget at failed
  cases found : c.lookup dev b with
  | some j => rw [found] at failed; cases failed
  | none =>
    rw [found] at failed
    cases free : c.victim with
    | some j => rw [free] at failed; cases failed
    | none =>
      intro j
      refine ⟨by simpa using List.find?_eq_none.mp found j (complete j), ?_⟩
      simpa using List.find?_eq_none.mp free j (by simpa using complete j)

/-- `unref` drops a reference and may reorder the list. -/
theorem unref_eq (c : Bcache ι) (i : Fin NBUF) :
    ∃ lru, (∀ j, j ∈ c.lru → j ∈ lru) ∧ c.unref i = { c.setBuf i (c.buf i).decr with lru := lru } := by
  unfold unref
  dsimp only
  split
  · refine ⟨_, fun j member => ?_, rfl⟩
    by_cases same : j = i
    · simp [same]
    · exact List.mem_cons_of_mem i ((List.mem_erase_of_ne same).mpr member)
  · exact ⟨c.lru, fun _ member => member, rfl⟩

/-! ## What the cache shows of the disk -/

/-- What `bread` finds for block `b`: the valid buffer assigned to it, or the disk. -/
def content (c : Bcache ι) (dev : Nat) (disk : Disk) : Disk := fun b =>
  match (List.finRange NBUF).find? fun i => decide (c.Tagged dev b i) && (c.buf i).valid with
  | some i => (c.buf i).data
  | none => disk b

/-- No block of `dev` has two buffers. -/
def Unique (c : Bcache ι) (dev : Nat) : Prop :=
  ∀ b i j, c.Tagged dev b i → c.Tagged dev b j → i = j

variable {c : Bcache ι} {dev : Nat} {disk : Disk}

theorem content_of_valid (unique : c.Unique dev) (tagged : c.Tagged dev b i)
    (valid : (c.buf i).valid = true) : c.content dev disk b = (c.buf i).data := by
  unfold content
  cases found : (List.finRange NBUF).find? fun i => decide (c.Tagged dev b i) && (c.buf i).valid with
  | some j =>
    have hit := List.find?_some found
    simp only [Bool.and_eq_true, decide_eq_true_eq] at hit
    rw [unique b i j tagged hit.1]
  | none =>
    have missed := List.find?_eq_none.mp found i (List.mem_finRange i)
    simp [tagged, valid] at missed

theorem content_of_invalid (absent : ∀ i, c.Tagged dev b i → (c.buf i).valid = false) :
    c.content dev disk b = disk b := by
  unfold content
  have missed : ((List.finRange NBUF).find? fun i => decide (c.Tagged dev b i) && (c.buf i).valid) = none := by
    refine List.find?_eq_none.mpr (fun i _ => ?_)
    by_cases tagged : c.Tagged dev b i
    · simp [absent i tagged]
    · simp [tagged]
  rw [missed]

/-- The value the cache shows is determined by the assigned buffer, if there is one. -/
theorem content_eq {x : Block} (unique : c.Unique dev)
    (shown : ∀ i, c.Tagged dev b i → (c.buf i).valid = true → (c.buf i).data = x)
    (bare : (∀ i, c.Tagged dev b i → (c.buf i).valid = false) → disk b = x) :
    c.content dev disk b = x := by
  by_cases cached : ∃ i, c.Tagged dev b i ∧ (c.buf i).valid = true
  · obtain ⟨i, tagged, valid⟩ := cached
    rw [content_of_valid unique tagged valid, shown i tagged valid]
  · have absent : ∀ i, c.Tagged dev b i → (c.buf i).valid = false := by
      intro i tagged
      by_contra valid
      exact cached ⟨i, tagged, by simpa using valid⟩
    rw [content_of_invalid absent, bare absent]

theorem tagged_setBuf (tagged : (c.setBuf i x).Tagged dev b j) :
    (j = i ∧ x.dev = dev ∧ x.blockno = b) ∨ (j ≠ i ∧ c.Tagged dev b j) := by
  by_cases same : j = i
  · subst same
    unfold Tagged at tagged
    rw [setBuf_self] at tagged
    exact .inl ⟨rfl, tagged⟩
  · unfold Tagged at tagged
    rw [setBuf_of_ne c x same] at tagged
    exact .inr ⟨same, tagged⟩

/-- A change that keeps a buffer's tag. -/
theorem tagged_setBuf_iff (dev_eq : x.dev = (c.buf i).dev)
    (block_eq : x.blockno = (c.buf i).blockno) :
    (c.setBuf i x).Tagged dev b j ↔ c.Tagged dev b j := by
  unfold Tagged
  by_cases same : j = i
  · subst same
    rw [setBuf_self, dev_eq, block_eq]
  · rw [setBuf_of_ne c x same]

theorem Tagged.setBuf (tagged : c.Tagged dev b j)
    (dev_eq : x.dev = (c.buf i).dev) (block_eq : x.blockno = (c.buf i).blockno) :
    (c.setBuf i x).Tagged dev b j :=
  (tagged_setBuf_iff dev_eq block_eq).mpr tagged

theorem Unique.setBuf (unique : c.Unique dev) (dev_eq : x.dev = (c.buf i).dev)
    (block_eq : x.blockno = (c.buf i).blockno) : (c.setBuf i x).Unique dev := by
  intro b j k hj hk
  exact unique b j k ((tagged_setBuf_iff dev_eq block_eq).mp hj) ((tagged_setBuf_iff dev_eq block_eq).mp hk)

/-- Reference counts and lock owners do not show. -/
theorem content_setBuf (unique : c.Unique dev) (dev_eq : x.dev = (c.buf i).dev)
    (block_eq : x.blockno = (c.buf i).blockno) (valid_eq : x.valid = (c.buf i).valid)
    (data_eq : x.data = (c.buf i).data) :
    (c.setBuf i x).content dev disk = c.content dev disk := by
  have same : ∀ j, ((c.setBuf i x).buf j).valid = (c.buf j).valid ∧
      ((c.setBuf i x).buf j).data = (c.buf j).data := by
    intro j
    by_cases eq : j = i
    · subst eq
      rw [setBuf_self]
      exact ⟨valid_eq, data_eq⟩
    · rw [setBuf_of_ne c x eq]
      exact ⟨rfl, rfl⟩
  funext b
  refine content_eq (unique.setBuf dev_eq block_eq) (fun j tagged valid => ?_) (fun absent => ?_)
  · rw [(same j).1] at valid
    rw [(same j).2, content_of_valid unique ((tagged_setBuf_iff dev_eq block_eq).mp tagged) valid]
  · refine (content_of_invalid (fun j tagged => ?_)).symm
    rw [← (same j).1]
    exact absent j ((tagged_setBuf_iff dev_eq block_eq).mpr tagged)

/-- New valid contents of a buffer are what its block shows. -/
theorem content_setData (unique : c.Unique dev) (tagged : c.Tagged dev b i)
    (dev_eq : x.dev = (c.buf i).dev) (block_eq : x.blockno = (c.buf i).blockno)
    (valid : x.valid = true) :
    (c.setBuf i x).content dev disk = Function.update (c.content dev disk) b x.data := by
  have tag : ∀ b' j, (c.setBuf i x).Tagged dev b' j ↔ c.Tagged dev b' j :=
    fun b' j => tagged_setBuf_iff dev_eq block_eq
  have unique' : (c.setBuf i x).Unique dev := unique.setBuf dev_eq block_eq
  funext b'
  by_cases same : b' = b
  · subst same
    rw [Function.update_self,
      content_of_valid unique' ((tag b' i).mpr tagged) (by rw [setBuf_self]; exact valid), setBuf_self]
  · rw [Function.update_of_ne same]
    have other : ∀ j, c.Tagged dev b' j → j ≠ i := by
      rintro j tagged' rfl
      exact same (tagged'.2.symm.trans tagged.2)
    refine content_eq unique' (fun j tagged' valid' => ?_) (fun absent => ?_)
    · have tagged' := (tag b' j).mp tagged'
      rw [setBuf_of_ne c _ (other j tagged')] at valid' ⊢
      exact (content_of_valid unique tagged' valid').symm
    · refine (content_of_invalid (fun j tagged' => ?_)).symm
      have := absent j ((tag b' j).mpr tagged')
      rwa [setBuf_of_ne c _ (other j tagged')] at this

/-- Reading a block from the disk into its buffer does not show. -/
theorem content_fill (unique : c.Unique dev) (tagged : c.Tagged dev b i)
    (invalid : (c.buf i).valid = false) :
    (c.setBuf i { c.buf i with data := disk b, valid := true }).content dev disk = c.content dev disk := by
  rw [content_setData unique tagged (x := { c.buf i with data := disk b, valid := true }) rfl rfl rfl]
  have shown : c.content dev disk b = disk b :=
    content_of_invalid (fun j tagged' => unique b j i tagged' tagged ▸ invalid)
  exact Function.update_eq_self_iff.mpr shown.symm

/-- Recycling a buffer whose block is on the disk does not show. -/
theorem content_recycle (unique : c.Unique dev) (absent : ∀ j, ¬ c.Tagged dev b j)
    (clean : ∀ b', c.Tagged dev b' i → c.content dev disk b' = disk b') (n : Nat) :
    let c' := c.setBuf i { c.buf i with dev := dev, blockno := b, valid := false, refcnt := n }
    c'.Unique dev ∧ c'.content dev disk = c.content dev disk := by
  intro c'
  have tag : ∀ b' j, c'.Tagged dev b' j → (j = i ∧ b' = b) ∨ (j ≠ i ∧ c.Tagged dev b' j) := by
    intro b' j tagged
    rcases tagged_setBuf tagged with ⟨rfl, _, rfl⟩ | old
    · exact .inl ⟨rfl, rfl⟩
    · exact .inr old
  have unique' : c'.Unique dev := by
    intro b' j k hj hk
    rcases tag b' j hj with ⟨rfl, rfl⟩ | ⟨_, oldj⟩ <;> rcases tag b' k hk with ⟨rfl, h⟩ | ⟨_, oldk⟩
    · rfl
    · exact absurd oldk (absent k)
    · exact absurd (h ▸ oldj) (absent j)
    · exact unique b' j k oldj oldk
  refine ⟨unique', funext fun b' => ?_⟩
  refine content_eq unique' (fun j tagged valid => ?_) (fun bare => ?_)
  · rcases tag b' j tagged with ⟨rfl, _⟩ | ⟨ne, old⟩
    · rw [show (c'.buf j).valid = false by simp [c']] at valid
      cases valid
    · rw [show c'.buf j = c.buf j from setBuf_of_ne c _ ne] at valid ⊢
      exact (content_of_valid unique old valid).symm
  · by_cases victim : c.Tagged dev b' i
    · exact (clean b' victim).symm
    · refine (content_of_invalid (fun j tagged => ?_)).symm
      have ne : j ≠ i := by
        rintro rfl
        exact victim tagged
      have tagged' : c'.Tagged dev b' j := by
        unfold Tagged
        rw [show c'.buf j = c.buf j from setBuf_of_ne c _ ne]
        exact tagged
      have := bare j tagged'
      rwa [show c'.buf j = c.buf j from setBuf_of_ne c _ ne] at this

/-- What a block shows depends on its own disk block only. -/
theorem content_frame {disk' : Disk} (same : disk' b = disk b) :
    c.content dev disk' b = c.content dev disk b := by
  unfold content
  rw [same]

end Bcache

end Xv6.Kernel
