/-
# Kernel.Virtio -- the disk driver and the device

Processes submit requests to a virtio disk in chains of three descriptors, through a ring of chain
heads that the device consumes; the device hands finished heads back through a second ring, which
the interrupt handler reads.  The indices of both rings are 16-bit counters that run freely.

Driver code runs under `vdisk_lock`, which `sleep` gives up; the device takes its steps at any
time, also between those of a driver that has the lock.  It may finish chains in any order.

The pages that the rings lie in are records here, with addresses as what they point to.  The
device's registers and the negotiation of `virtio_disk_init` are left out. -/
import Xv6.Theory.Ring
import Xv6.Theory.Steps

namespace Xv6.Kernel.Virtio

set_option autoImplicit false
set_option linter.unusedSectionVars false

open Xv6.Theory Xv6.Theory.Steps
open Function (update update_eq_self update_of_ne update_self)

/-! ## State -/

abbrev NUM : Nat := 8
abbrev BSIZE : Nat := 1024
abbrev VRING_DESC_F_NEXT : Nat := 1
abbrev VRING_DESC_F_WRITE : Nat := 2
abbrev VIRTIO_BLK_T_IN : Nat := 0
abbrev VIRTIO_BLK_T_OUT : Nat := 1

/-- A `uint16` index counts modulo this.  Proofs open it by `u16_eq` only. -/
@[irreducible] def U16 : Nat := 2 ^ 16

/-- What a descriptor points to: `&disk.ops[i]`, the data of a buffer, `&disk.info[i].status`. -/
inductive Addr (β : Type) where
  | null
  | op (i : Nat)
  | data (b : β)
  | status (i : Nat)

structure Desc (β : Type) where
  addr : Addr β
  len : Nat
  flags : Nat
  next : Nat

/-- `struct virtio_blk_req` -/
structure BlkReq where
  type : Nat
  reserved : Nat
  sector : Nat

structure Info (β : Type) where
  b : Option β
  status : UInt8

/-- `struct disk`.  `avail` holds the device's place as `nread` and `avail->idx` as `nwrite`;
`used` holds `disk.used_idx` as `nread` and `used->idx` as `nwrite`. -/
structure Disk (β : Type) where
  desc : Nat → Desc β
  avail : RingBuf Nat
  used : RingBuf Nat
  free : Nat → Bool
  info : Nat → Info β
  ops : Nat → BlkReq

/-- A call of `virtio_disk_rw(b, write)` that has its descriptors. -/
structure Req (β : Type) where
  b : β
  write : Bool
  i0 : Nat
  i1 : Nat
  i2 : Nat
deriving DecidableEq

def Req.idx {β : Type} (q : Req β) : List Nat := [q.i0, q.i1, q.i2]

/-- Before the descriptors are allocated. -/
inductive AllocPc where
  | lock | alloc | asleep | woken
deriving DecidableEq

/-- After they are. -/
inductive RwPc where
  | format | ring | bump | test | asleep | woken
deriving DecidableEq

inductive Thread (β : Type) where
  | idle
  | alloc (b : β) (write : Bool) (pc : AllocPc)
  | rw (q : Req β) (pc : RwPc)
  | intr (locked : Bool)
deriving DecidableEq

/-- The heads of the chains the device has fetched, and of those it is done with and has not
handed back. -/
structure Device where
  fetched : List Nat
  finished : List Nat

inductive Panic where
  | freeDesc1 | freeDesc2 | intrStatus
  /-- The handler follows a null pointer. -/
  | noBuffer
  /-- The device finds a chain that is not a request. -/
  | badChain
deriving DecidableEq

/-- `busy` is `b->disk`; `data` and `sectors` are what the buffers and the disk hold. -/
structure State (τ β δ : Type) where
  disk : Disk β
  device : Device
  lock : Option τ
  thread : τ → Thread β
  busy : β → Bool
  blockno : β → Nat
  data : β → δ
  sectors : Nat → δ

inductive Act (τ β : Type) where
  | rw (t : τ) (b : β) (write : Bool)
  | intr (t : τ)
  | exec (t : τ)
  | kill (t : τ)
  | fetch
  | finish (head : Nat)
  | publish (head : Nat)

/-! ## Descriptors -/

section

variable {β : Type}

def Disk.allocDesc (d : Disk β) : Option (Nat × Disk β) :=
  ((List.range NUM).find? d.free).map fun i => (i, { d with free := update d.free i false })

def Disk.freeDesc (d : Disk β) (i : Nat) : Except Panic (Disk β) :=
  if NUM ≤ i then .error .freeDesc1
  else if d.free i then .error .freeDesc2
  else .ok { d with desc := update d.desc i ⟨.null, 0, 0, 0⟩, free := update d.free i true }

/-- The loop of `free_chain`.  A chain longer than `NUM` comes back to a descriptor it has freed. -/
def Disk.freeChain (d : Disk β) : Nat → Nat → Except Panic (Disk β)
  | 0, _ => .error .freeDesc2
  | turns + 1, i => do
      let flag := (d.desc i).flags
      let nxt := (d.desc i).next
      let d ← d.freeDesc i
      if flag &&& VRING_DESC_F_NEXT ≠ 0 then d.freeChain turns nxt else .ok d

/-- `for(int j = 0; j < i; j++) free_desc(idx[j]);` -/
def Disk.freeAll (d : Disk β) : List Nat → Except Panic (Disk β)
  | [] => .ok d
  | i :: rest => do
      let d ← d.freeDesc i
      d.freeAll rest

/-- The loop of `alloc3_desc`, with `n` descriptors to go: the descriptors, and whether it got
them all; else it has freed them again. -/
def Disk.allocFrom (d : Disk β) (idx : List Nat) : Nat → Except Panic (List Nat × Bool × Disk β)
  | 0 => .ok (idx, true, d)
  | n + 1 =>
    match d.allocDesc with
    | none => do
        let d ← d.freeAll idx
        .ok (idx, false, d)
    | some (i, d) => d.allocFrom (idx ++ [i]) n

def Disk.alloc3Desc (d : Disk β) : Except Panic (List Nat × Bool × Disk β) := d.allocFrom [] 3

/-- The part of `virtio_disk_rw` that formats the descriptors. -/
def Disk.format (d : Disk β) (q : Req β) (sector : Nat) : Disk β :=
  { d with
    ops := update d.ops q.i0 ⟨if q.write then VIRTIO_BLK_T_OUT else VIRTIO_BLK_T_IN, 0, sector⟩
    desc := update (update (update d.desc
      q.i0 ⟨.op q.i0, 16, VRING_DESC_F_NEXT, q.i1⟩)
      q.i1 ⟨.data q.b, BSIZE, (if q.write then 0 else VRING_DESC_F_WRITE) ||| VRING_DESC_F_NEXT, q.i2⟩)
      q.i2 ⟨.status q.i0, 1, VRING_DESC_F_WRITE, 0⟩
    info := update d.info q.i0 ⟨some q.b, 0xff⟩ }

end

/-! ## Code -/

/-- `wakeup(&disk.free[0])` -/
def Thread.wakeAlloc {β : Type} : Thread β → Thread β
  | .alloc b write .asleep => .alloc b write .woken
  | k => k

/-- `wakeup(b)` -/
def Thread.wakeBuf {β : Type} [DecidableEq β] (b : β) : Thread β → Thread β
  | .rw q .asleep => if q.b = b then .rw q .woken else .rw q .asleep
  | k => k

variable {τ β δ : Type} [DecidableEq τ] [DecidableEq β]

namespace State

def goto (s : State τ β δ) (t : τ) (k : Thread β) : State τ β δ := { s with thread := update s.thread t k }

def acquire (s : State τ β δ) (t : τ) (k : Thread β) : Outcome Panic (State τ β δ) :=
  match s.lock with
  | none => .next { s with thread := update s.thread t k, lock := some t }
  | some _ => .blocked

def release (s : State τ β δ) : State τ β δ := { s with lock := none }

def wakeup (s : State τ β δ) (f : Thread β → Thread β) : State τ β δ := { s with thread := fun t => f (s.thread t) }

end State

/-- Go on with the result of a part that may panic. -/
def attempt {α : Type} (r : Except Panic α) (f : α → Outcome Panic (State τ β δ)) : Outcome Panic (State τ β δ) :=
  match r with
  | .error e => .panic e
  | .ok a => f a

/-- `virtio_disk_rw` up to the allocation of descriptors. -/
def rwAlloc (s : State τ β δ) (t : τ) (b : β) (write : Bool) : AllocPc → Outcome Panic (State τ β δ)
  | .lock | .woken => s.acquire t (.alloc b write .alloc)
  | .asleep => .blocked
  | .alloc => attempt s.disk.alloc3Desc fun
      | ([i0, i1, i2], true, disk) => .next ({ s with disk := disk }.goto t (.rw ⟨b, write, i0, i1, i2⟩ .format))
      | (idx, _, disk) =>
        -- `free_desc` wakes the others
        .next ({ s with disk := disk }.wakeup (if idx = [] then id else Thread.wakeAlloc) |>.goto t
          (.alloc b write .asleep)).release

/-- `virtio_disk_rw` from then on. -/
def rwBody (s : State τ β δ) (t : τ) (q : Req β) : RwPc → Outcome Panic (State τ β δ)
  | .format => .next { s.goto t (.rw q .ring) with
      disk := s.disk.format q (s.blockno q.b * (BSIZE / 512) % 2 ^ 32)
      busy := update s.busy q.b true }
  | .ring => .next { s.goto t (.rw q .bump) with
      disk := { s.disk with avail := { s.disk.avail with
        data := update s.disk.avail.data (s.disk.avail.nwrite % NUM) q.i0 } } }
  | .bump => .next { s.goto t (.rw q .test) with
      disk := { s.disk with avail := { s.disk.avail with nwrite := (s.disk.avail.nwrite + 1) % U16 } } }
  | .test =>
    if s.busy q.b then .next (s.goto t (.rw q .asleep)).release
    else
      let disk := { s.disk with info := update s.disk.info q.i0 { s.disk.info q.i0 with b := none } }
      attempt (disk.freeChain (NUM + 1) q.i0) fun disk =>
        .next ({ s with disk := disk }.wakeup Thread.wakeAlloc |>.goto t .idle).release
  | .asleep => .blocked
  | .woken => s.acquire t (.rw q .test)

/-- `virtio_disk_intr`: one turn of its loop. -/
def diskIntr (s : State τ β δ) (t : τ) : Bool → Outcome Panic (State τ β δ)
  | false => s.acquire t (.intr true)
  | true =>
    if s.disk.used.nread = s.disk.used.nwrite then .next (s.goto t .idle).release
    else
      let id := s.disk.used.data (s.disk.used.nread % NUM)
      if (s.disk.info id).status ≠ 0 then .panic .intrStatus
      else
        match (s.disk.info id).b with
        | none => .panic .noBuffer
        | some b => .next { s.wakeup (Thread.wakeBuf b) with
            busy := update s.busy b false
            disk := { s.disk with used := { s.disk.used with nread := (s.disk.used.nread + 1) % U16 } } }

/-- The device fetches the next head. -/
def fetch (s : State τ β δ) : Outcome Panic (State τ β δ) :=
  if s.disk.avail.nread = s.disk.avail.nwrite then .blocked
  else .next { s with
    device := { s.device with fetched := s.device.fetched ++ [s.disk.avail.data (s.disk.avail.nread % NUM)] }
    disk := { s.disk with avail := { s.disk.avail with nread := (s.disk.avail.nread + 1) % U16 } } }

/-- The device carries a request out: it moves the data and reports success. -/
def finish (s : State τ β δ) (head : Nat) : Outcome Panic (State τ β δ) :=
  if head ∉ s.device.fetched then .blocked
  else
    let d0 := s.disk.desc head
    let d1 := s.disk.desc d0.next
    let d2 := s.disk.desc d1.next
    match d0.addr, d1.addr, d2.addr with
    | .op i, .data b, .status k =>
      let op := s.disk.ops i
      .next { s with
        device := ⟨s.device.fetched.erase head, s.device.finished ++ [head]⟩
        disk := { s.disk with info := update s.disk.info k { s.disk.info k with status := 0 } }
        data := if op.type = VIRTIO_BLK_T_IN then update s.data b (s.sectors op.sector) else s.data
        sectors := if op.type = VIRTIO_BLK_T_IN then s.sectors else update s.sectors op.sector (s.data b) }
    | _, _, _ => .panic .badChain

/-- The device hands a finished head back. -/
def publish (s : State τ β δ) (head : Nat) : Outcome Panic (State τ β δ) :=
  if head ∉ s.device.finished then .blocked
  else .next { s with
    device := { s.device with finished := s.device.finished.erase head }
    disk := { s.disk with used := s.disk.used.push NUM U16 head } }

def step (s : State τ β δ) : Act τ β → Outcome Panic (State τ β δ)
  | .rw t b write =>
    match s.thread t with
    | .idle => .next (s.goto t (.alloc b write .lock))
    | _ => .blocked
  | .intr t =>
    match s.thread t with
    | .idle => .next (s.goto t (.intr false))
    | _ => .blocked
  | .exec t =>
    match s.thread t with
    | .idle => .blocked
    | .alloc b write pc => rwAlloc s t b write pc
    | .rw q pc => rwBody s t q pc
    | .intr locked => diskIntr s t locked
  -- `kill` makes a sleeper runnable; it goes back to its test
  | .kill t =>
    match s.thread t with
    | .alloc b write .asleep => .next (s.goto t (.alloc b write .woken))
    | .rw q .asleep => .next (s.goto t (.rw q .woken))
    | _ => .blocked
  | .fetch => fetch s
  | .finish head => finish s head
  | .publish head => publish s head

/-- After `virtio_disk_init`. -/
def diskInit (blockno : β → Nat) (data : β → δ) (sectors : Nat → δ) : State τ β δ where
  disk := ⟨fun _ => ⟨.null, 0, 0, 0⟩, ⟨fun _ => 0, 0, 0⟩, ⟨fun _ => 0, 0, 0⟩, fun i => decide (i < NUM),
    fun _ => ⟨none, 0⟩, fun _ => ⟨0, 0, 0⟩⟩
  device := ⟨[], []⟩
  lock := none
  thread := fun _ => .idle
  busy := fun _ => false
  blockno := blockno
  data := data
  sectors := sectors

/-- The buffer a thread has in its call. -/
def Thread.buffer : Thread β → Option β
  | .alloc b _ _ => some b
  | .rw q _ => some q.b
  | _ => none

/-- A call is made on a buffer that no other call has: its caller holds its lock. -/
def Distinct (s : State τ β δ) : Act τ β → Prop
  | .rw _ b _ => ∀ t, (s.thread t).buffer ≠ some b
  | _ => True

/-! ## What holds -/

/-- A request has its descriptors, or they are formatted, or the device has been told. -/
inductive Phase where
  | new | ready | sent
deriving DecidableEq

def RwPc.phase : RwPc → Phase
  | .format => .new
  | .ring | .bump => .ready
  | .test | .asleep | .woken => .sent

def Thread.request : Thread β → Option (Req β × Phase)
  | .rw q pc => some (q, pc.phase)
  | _ => none

/-- The heads between submission and the handler, in the order they move on. -/
def heads (disk : Disk β) (device : Device) : List Nat :=
  disk.avail.contents NUM U16 ++ (device.fetched ++ (device.finished ++ disk.used.contents NUM U16))

/-- The descriptors of a request describe it. -/
structure Formatted (disk : Disk β) (q : Req β) : Prop where
  first : (disk.desc q.i0).addr = .op q.i0 ∧ (disk.desc q.i0).flags = VRING_DESC_F_NEXT ∧ (disk.desc q.i0).next = q.i1
  second : (disk.desc q.i1).addr = .data q.b ∧ (disk.desc q.i1).flags &&& VRING_DESC_F_NEXT ≠ 0 ∧
    (disk.desc q.i1).next = q.i2
  third : (disk.desc q.i2).addr = .status q.i0 ∧ (disk.desc q.i2).flags &&& VRING_DESC_F_NEXT = 0
  owner : (disk.info q.i0).b = some q.b

/-- The requests, the descriptors and the rings agree. -/
structure Shape (disk : Disk β) (device : Device) (busy : β → Bool) (req : τ → Option (Req β × Phase)) : Prop where
  descs : ∀ t q ph, req t = some (q, ph) → q.idx.Nodup ∧ ∀ i ∈ q.idx, i < NUM ∧ disk.free i = false
  apart : ∀ t t' q q' ph ph' i, req t = some (q, ph) → req t' = some (q', ph') → i ∈ q.idx → i ∈ q'.idx → t = t'
  taken : ∀ i < NUM, disk.free i = false → ∃ t q ph, req t = some (q, ph) ∧ i ∈ q.idx
  buffers : ∀ t t' q q' ph ph', req t = some (q, ph) → req t' = some (q', ph') → q.b = q'.b → t = t'
  formatted : ∀ t q ph, req t = some (q, ph) → ph ≠ .new → Formatted disk q
  avail : disk.avail.Counted U16
  used : disk.used.Counted U16
  nodup : (heads disk device).Nodup
  ready : ∀ t q, req t = some (q, .ready) → busy q.b = true
  member : ∀ id ∈ heads disk device, ∃ t q, req t = some (q, .sent) ∧ q.i0 = id ∧ busy q.b = true
  sent : ∀ t q, req t = some (q, .sent) → busy q.b = true → q.i0 ∈ heads disk device
  done : ∀ id ∈ device.finished ++ disk.used.contents NUM U16, (disk.info id).status = 0

/-! ## Allocating and freeing descriptors -/

theorem u16_eq : U16 = 2 ^ 16 := by
  unfold U16
  rfl

theorem num_dvd : NUM ∣ U16 := by
  rw [u16_eq]
  decide

theorem num_lt : NUM < U16 := by
  rw [u16_eq]
  decide

variable {d d' : Disk β}

/-- `d` with the descriptors in `idx` marked. -/
def Disk.mark (d : Disk β) (idx : List Nat) (free : Bool) :
    Disk β := { d with free := fun i => if i ∈ idx then free else d.free i }

/-- The descriptors in `idx` are freed. -/
def Disk.clear (d : Disk β) (idx : List Nat) : Disk β :=
  { d.mark idx true with desc := fun i => if i ∈ idx then ⟨.null, 0, 0, 0⟩ else d.desc i }

theorem update_eq_ite {α : Type} (f : Nat → α) (i : Nat) (x : α) :
    update f i x = fun j => if j ∈ [i] then x else f j := by
  funext j
  by_cases here : j = i <;> simp [here]

theorem allocDesc_cases (d : Disk β) :
    d.allocDesc = none ∨ ∃ i, d.allocDesc = some (i, d.mark [i] false) ∧ i < NUM ∧ d.free i = true := by
  unfold Disk.allocDesc
  cases found : (List.range NUM).find? d.free with
  | none => exact .inl rfl
  | some i =>
    refine .inr ⟨i, ?_, List.mem_range.mp (List.mem_of_find?_eq_some found), List.find?_some found⟩
    rw [Option.map_some, update_eq_ite]
    rfl

variable {i : Nat} {q : Req β}

theorem freeDesc_ok (range : i < NUM) (used : d.free i = false) : d.freeDesc i = .ok (d.clear [i]) := by
  unfold Disk.freeDesc
  rw [if_neg (by omega), used, if_neg (by decide), update_eq_ite, update_eq_ite]
  rfl

theorem clear_clear (d : Disk β) (idx idx' : List Nat) : (d.clear idx).clear idx' = d.clear (idx ++ idx') := by
  simp only [Disk.clear, Disk.mark, List.mem_append]
  congr 1
  · funext i
    by_cases here : i ∈ idx' <;> by_cases there : i ∈ idx <;> simp [here, there]
  · funext i
    by_cases here : i ∈ idx' <;> by_cases there : i ∈ idx <;> simp [here, there]

theorem freeAll_ok : ∀ {idx : List Nat} {d : Disk β}, idx.Nodup → (∀ i ∈ idx, i < NUM ∧ d.free i = false) →
    d.freeAll idx = .ok (d.clear idx) := by
  intro idx
  induction idx with
  | nil =>
    intro d _ _
    simp [Disk.freeAll, Disk.clear, Disk.mark]
  | cons i rest ih =>
    intro d nodup used
    obtain ⟨fresh, nodup⟩ := List.nodup_cons.mp nodup
    obtain ⟨range, held⟩ := used i List.mem_cons_self
    have step : (d.clear [i]).freeAll rest = .ok ((d.clear [i]).clear rest) := by
      apply ih nodup
      intro j member
      obtain ⟨range', held'⟩ := used j (List.mem_cons_of_mem i member)
      have ne : j ≠ i := fun eq => fresh (eq ▸ member)
      exact ⟨range', by simp [Disk.clear, Disk.mark, ne, held']⟩
    rw [Disk.freeAll, freeDesc_ok range held]
    exact step.trans (by rw [clear_clear, List.singleton_append])

theorem mark_mark (d : Disk β) (idx idx' : List Nat) (f : Bool) :
    (d.mark idx f).mark idx' f = d.mark (idx ++ idx') f := by
  simp only [Disk.mark, List.mem_append]
  congr 1
  funext i
  by_cases here : i ∈ idx' <;> by_cases there : i ∈ idx <;> simp [here, there]

/-- Descriptors that were free: `idx` is a list of them without repetition. -/
def Fresh (d : Disk β) (idx : List Nat) : Prop := idx.Nodup ∧ ∀ i ∈ idx, i < NUM ∧ d.free i = true

theorem allocFrom_cases : ∀ (n : Nat) {idx : List Nat}, Fresh d idx → ∃ idx', Fresh d idx' ∧
    ((d.mark idx false).allocFrom idx n = .ok (idx', true, d.mark idx' false) ∧ idx'.length = idx.length + n ∨
     (d.mark idx false).allocFrom idx n = .ok (idx', false, (d.mark idx' false).clear idx')) := by
  intro n
  induction n with
  | zero => exact fun {idx} fresh => ⟨idx, fresh, .inl ⟨rfl, rfl⟩⟩
  | succ n ih =>
    intro idx fresh
    rw [Disk.allocFrom]
    rcases allocDesc_cases (d.mark idx false) with none | ⟨i, found, range, free⟩
    · refine ⟨idx, fresh, .inr ?_⟩
      have freed := freeAll_ok (d := d.mark idx false) fresh.1 fun i member =>
        ⟨(fresh.2 i member).1, by simp [Disk.mark, member]⟩
      rw [none]
      dsimp only
      rw [freed]
      rfl
    · have new : i ∉ idx := by
        intro member
        simp [Disk.mark, member] at free
      have was : d.free i = true := by simpa [Disk.mark, new] using free
      have fresh' : Fresh d (idx ++ [i]) := by
        refine ⟨List.nodup_append.mpr ⟨fresh.1, by simp, ?_⟩, ?_⟩
        · intro a memberA b memberB same
          rw [List.mem_singleton.mp memberB] at same
          exact new (same ▸ memberA)
        · intro j member
          rcases List.mem_append.mp member with old | last
          · exact fresh.2 j old
          · rw [List.mem_singleton.mp last]
            exact ⟨range, was⟩
      obtain ⟨idx', fresh'', outcome⟩ := ih fresh'
      refine ⟨idx', fresh'', ?_⟩
      rw [found]
      dsimp only
      rw [mark_mark]
      rw [List.length_append, List.length_singleton] at outcome
      rcases outcome with ⟨all, length⟩ | fails
      · exact .inl ⟨all, by omega⟩
      · exact .inr fails

/-- `alloc3_desc` takes three free descriptors, or leaves those in use alone. -/
theorem alloc3Desc_cases (d : Disk β) :
    (∃ i0 i1 i2, d.alloc3Desc = .ok ([i0, i1, i2], true, d.mark [i0, i1, i2] false) ∧ Fresh d [i0, i1, i2]) ∨
    ∃ idx d', d.alloc3Desc = .ok (idx, false, d') ∧ d' = { d with desc := d'.desc } ∧ ∀ i, d.free i = false →
    d'.desc i = d.desc i := by
  have start : d.mark [] false = d := by simp [Disk.mark]
  obtain ⟨idx, fresh, outcome⟩ :=
    allocFrom_cases (d := d) 3 (⟨List.nodup_nil, fun _ no => absurd no List.not_mem_nil⟩ : Fresh d [])
  rw [start] at outcome
  rcases outcome with ⟨all, length⟩ | fails
  · obtain ⟨i0, i1, i2, rfl⟩ := List.length_eq_three.mp length
    exact .inl ⟨i0, i1, i2, all, fresh⟩
  · refine .inr ⟨idx, _, fails, ?_, ?_⟩
    · have same : (fun i => if i ∈ idx then true else if i ∈ idx then false else d.free i) = d.free := by
        funext i
        by_cases member : i ∈ idx
        · simp [member, (fresh.2 i member).2]
        · simp [member]
      simp only [Disk.clear, Disk.mark, same]
    · intro i used
      have other : i ∉ idx := by
        intro member
        rw [(fresh.2 i member).2] at used
        cases used
      simp [Disk.clear, Disk.mark, other]

/-- `free_chain` frees the three descriptors of a request. -/
theorem freeChain_ok (formatted : Formatted d' q) (desc : d'.desc = d.desc) (nodup : q.idx.Nodup)
    (used : ∀ i ∈ q.idx, i < NUM ∧ d.free i = false) : d.freeChain (NUM + 1) q.i0 = .ok (d.clear q.idx) := by
  obtain ⟨head, middle, tail, -⟩ := formatted
  rw [desc] at head middle tail
  obtain ⟨apart, apart', last⟩ : q.i0 ≠ q.i1 ∧ q.i0 ≠ q.i2 ∧ q.i1 ≠ q.i2 := by
    simp only [Req.idx, List.nodup_cons, List.mem_cons, List.not_mem_nil, or_false, not_or] at nodup
    exact ⟨nodup.1.1, nodup.1.2, nodup.2.1⟩
  obtain ⟨range0, held0⟩ := used q.i0 (by simp [Req.idx])
  obtain ⟨range1, held1⟩ := used q.i1 (by simp [Req.idx])
  obtain ⟨range2, held2⟩ := used q.i2 (by simp [Req.idx])
  have keeps : ∀ i idx, i ∉ idx → (d.clear idx).desc i = d.desc i ∧ (d.clear idx).free i = d.free i := by
    intro i idx other
    simp [Disk.clear, Disk.mark, other]
  have second := keeps q.i1 [q.i0] (by simpa using apart.symm)
  have third := keeps q.i2 [q.i0, q.i1] (by simp [apart'.symm, last.symm])
  have turn2 : (d.clear [q.i0, q.i1]).freeChain (6 + 1) q.i2 = .ok (d.clear q.idx) := by
    rw [Disk.freeChain, freeDesc_ok range2 (third.2.trans held2), third.1]
    change (if _ then _ else _) = _
    rw [if_neg (not_not.mpr tail.2), clear_clear]
    rfl
  have turn1 : (d.clear [q.i0]).freeChain (7 + 1) q.i1 = .ok (d.clear q.idx) := by
    rw [Disk.freeChain, freeDesc_ok range1 (second.2.trans held1), second.1]
    change (if _ then _ else _) = _
    rw [if_pos middle.2.1, clear_clear, middle.2.2]
    exact turn2
  rw [Disk.freeChain, freeDesc_ok range0 held0, head.2.1, head.2.2]
  exact turn1

/-! ## The requests move on -/

/-- A request is described by its own descriptors. -/
theorem Formatted.congr (formatted : Formatted d q) (desc : ∀ i ∈ q.idx, d'.desc i = d.desc i)
    (info : (d'.info q.i0).b = (d.info q.i0).b) : Formatted d' q := by
  have same0 := desc q.i0 (by simp [Req.idx])
  have same1 := desc q.i1 (by simp [Req.idx])
  have same2 := desc q.i2 (by simp [Req.idx])
  obtain ⟨first, second, third, owner⟩ := formatted
  refine ⟨?_, ?_, ?_, info.trans owner⟩
  · rw [same0]
    exact first
  · rw [same1]
    exact second
  · rw [same2]
    exact third

namespace Shape

variable {disk disk' : Disk β} {device device' : Device} {busy : β → Bool} {req : τ → Option (Req β × Phase)}
  {t : τ} {q : Req β} {ph : Phase}

variable {id : Nat}

theorem head_lt (shape : Shape disk device busy req) (member : id ∈ heads disk device) : id < NUM := by
  obtain ⟨t, q, is, same, _⟩ := shape.member id member
  rw [← same]
  exact ((shape.descs t q _ is).2 q.i0 (by simp [Req.idx])).1

/-- A request that the device has not been told of, or that the handler is done with, is nowhere
in between. -/
theorem absent (shape : Shape disk device busy req) (is : req t = some (q, ph)) (idle : ph = .sent → busy q.b = false) :
    q.i0 ∉ heads disk device := by
  intro member
  obtain ⟨t', q', is', same, busy'⟩ := shape.member _ member
  obtain rfl := shape.apart t t' q q' ph _ q.i0 is is' (by simp [Req.idx]) (by simp [Req.idx, same])
  rw [is] at is'
  cases is'
  rw [idle rfl] at busy'
  cases busy'

/-- There is room in the rings. -/
theorem few (shape : Shape disk device busy req) (range : id < NUM) (absent : id ∉ heads disk device) :
    (heads disk device).length < NUM := by
  have nodup : (id :: heads disk device).Nodup := List.nodup_cons.mpr ⟨absent, shape.nodup⟩
  have inside : (id :: heads disk device) ⊆ List.range NUM := by
    intro i member
    rcases List.mem_cons.mp member with rfl | old
    · exact List.mem_range.mpr range
    · exact List.mem_range.mpr (shape.head_lt old)
  have length := (nodup.subperm inside).length_le
  rw [List.length_cons, List.length_range] at length
  exact length

theorem avail_le (disk : Disk β) (device : Device) : disk.avail.size U16 ≤ (heads disk device).length := by
  rw [heads, List.length_append, RingBuf.length_contents]
  exact Nat.le_add_right _ _

section

variable (shape : Shape disk device busy req)
include shape

/-- Heads move between the rings and the device; the descriptors stay. -/
theorem shift (desc : disk'.desc = disk.desc) (free : disk'.free = disk.free)
    (info : ∀ i, (disk'.info i).b = (disk.info i).b) (avail : disk'.avail.Counted U16) (used : disk'.used.Counted U16)
    (perm : (heads disk' device').Perm (heads disk device))
    (done : ∀ id ∈ device'.finished ++ disk'.used.contents NUM U16, (disk'.info id).status = 0) :
    Shape disk' device' busy req where
  descs := by
    rw [free]
    exact shape.descs
  apart := shape.apart
  taken := by
    rw [free]
    exact shape.taken
  buffers := shape.buffers
  formatted := by
    intro t q ph is begun
    exact (shape.formatted t q ph is begun).congr (fun i _ => by rw [desc]) (info q.i0)
  avail := avail
  used := used
  nodup := perm.nodup_iff.mpr shape.nodup
  ready := shape.ready
  member := fun id member => shape.member id (perm.mem_iff.mp member)
  sent := fun t q is on => perm.mem_iff.mpr (shape.sent t q is on)
  done := done

/-- The device fetches a head. -/
theorem fetch (holds : ¬ disk.avail.Empty) :
    Shape { disk with avail := disk.avail.pop U16 }
    { device with fetched := device.fetched ++ [disk.avail.front NUM] } busy req := by
  refine shape.shift rfl rfl (fun _ => rfl) shape.avail.pop shape.used ?_ shape.done
  have moved := @List.perm_middle Nat (disk.avail.front NUM) ((disk.avail.pop U16).contents NUM U16 ++ device.fetched)
    (device.finished ++ disk.used.contents NUM U16)
  rw [heads, heads, shape.avail.contents_pop num_dvd holds]
  simpa using moved

/-- The device carries a request out. -/
theorem finish (member : id ∈ device.fetched) (info : disk'.info = update disk.info id ⟨(disk.info id).b, 0⟩)
    (same : disk' = { disk with info := disk'.info }) :
    Shape disk' ⟨device.fetched.erase id, device.finished ++ [id]⟩ busy req := by
  have perm : (heads disk' ⟨device.fetched.erase id, device.finished ++ [id]⟩).Perm (heads disk device) := by
    rw [same, heads, heads]
    refine List.Perm.append_left _ ?_
    rw [List.append_assoc]
    refine List.Perm.trans ?_ (List.Perm.append_right _ (List.perm_cons_erase member).symm)
    rw [List.cons_append, ← List.singleton_append]
    refine List.Perm.trans (List.Perm.append_left _ ?_) (List.perm_middle (a := id))
    exact List.perm_middle
  have done : ∀ i ∈ device.finished ++ [id] ++ disk'.used.contents NUM U16, (disk'.info i).status = 0 := by
    intro i inside
    rw [info]
    by_cases here : i = id
    · rw [here, update_self]
    · rw [update_of_ne here]
      apply shape.done
      rw [same] at inside
      simpa [here] using inside
  refine shape.shift (by rw [same]) (by rw [same]) (fun i => ?_) (by rw [same]; exact shape.avail)
    (by rw [same]; exact shape.used) perm done
  rw [info]
  by_cases here : i = id
  · rw [here, update_self]
  · rw [update_of_ne here]

/-- The device hands a head back. -/
theorem publish (member : id ∈ device.finished) :
    Shape { disk with used := disk.used.push NUM U16 id }
    { device with finished := device.finished.erase id } busy req := by
  have split : device.finished.Perm (id :: device.finished.erase id) := List.perm_cons_erase member
  have room : disk.used.size U16 < NUM := by
    have all : (heads disk device).length ≤ NUM := by
      have length := (shape.nodup.subperm fun i inside => List.mem_range.mpr (shape.head_lt inside)).length_le
      rwa [List.length_range] at length
    have count := split.length_eq
    simp only [heads, List.length_append, RingBuf.length_contents, List.length_cons] at all count
    omega
  have contents := shape.used.contents_push num_dvd num_lt id room
  refine shape.shift rfl rfl (fun _ => rfl) shape.avail (shape.used.push id) ?_ fun i inside => ?_
  · rw [heads, heads, contents]
    refine List.Perm.append_left _ (List.Perm.append_left _ ?_)
    refine List.Perm.trans ?_ (List.Perm.append_right _ split.symm)
    rw [← List.append_assoc, List.cons_append]
    exact List.perm_append_singleton _ _
  · apply shape.done
    rw [contents] at inside
    rcases List.mem_append.mp inside with kept | back
    · exact List.mem_append_left _ (List.mem_of_mem_erase kept)
    · rcases List.mem_append.mp back with old | new
      · exact List.mem_append_right _ old
      · rw [List.mem_singleton.mp new]
        exact List.mem_append_left _ member

/-- The handler is done with a request. -/
theorem handled (holds : ¬ disk.used.Empty) : ∃ t q, req t = some (q, .sent) ∧
    q.i0 = disk.used.front NUM ∧ busy q.b = true ∧ (disk.info q.i0).status = 0 ∧ (disk.info q.i0).b = some q.b ∧
    Shape { disk with used := disk.used.pop U16 } device (update busy q.b false) req := by
  have contents := shape.used.contents_pop (N := NUM) num_dvd holds
  have perm : (heads disk device).Perm
      (disk.used.front NUM :: heads { disk with used := disk.used.pop U16 } device) := by
    have moved := @List.perm_middle Nat (disk.used.front NUM) (disk.avail.contents NUM U16 ++
      device.fetched ++ device.finished)
      ((disk.used.pop U16).contents NUM U16)
    rw [heads, heads, contents]
    simpa using moved
  have nodup := perm.nodup_iff.mp shape.nodup
  obtain ⟨fresh, nodup'⟩ := List.nodup_cons.mp nodup
  obtain ⟨t, q, is, first, on⟩ := shape.member _ (perm.mem_iff.mpr List.mem_cons_self)
  have status := shape.done (disk.used.front NUM) (by rw [contents]; simp)
  refine ⟨t, q, is, first, on, by rw [first]; exact status, (shape.formatted t q _ is (by decide)).owner, ?_⟩
  -- the buffers of the other requests are other buffers
  have others : ∀ t' q' ph', req t' = some (q', ph') → t' ≠ t → update busy q.b false q'.b = busy q'.b := by
    intro t' q' ph' is' ne
    apply update_of_ne
    intro same
    exact ne (shape.buffers t' t q' q ph' _ is' is same)
  have formatted : ∀ t' q' ph', req t' = some (q', ph') → ph' ≠ .new →
    Formatted { disk with used := disk.used.pop U16 } q' := by
    intro t' q' ph' is' begun
    exact (shape.formatted t' q' ph' is' begun).congr (fun _ _ => rfl) rfl
  refine ⟨shape.descs, shape.apart, shape.taken, shape.buffers, formatted, shape.avail, shape.used.pop, nodup', ?_,
    ?_, ?_, ?_⟩
  · intro t' q' is'
    rw [others t' q' _ is' (by rintro rfl; rw [is] at is'; cases is')]
    exact shape.ready t' q' is'
  · intro id member
    obtain ⟨t', q', is', same, on'⟩ := shape.member id (perm.mem_iff.mpr (List.mem_cons_of_mem _ member))
    refine ⟨t', q', is', same, ?_⟩
    rw [others t' q' _ is', on']
    rintro rfl
    rw [is] at is'
    cases is'
    rw [first] at same
    exact fresh (same ▸ member)
  · intro t' q' is' on'
    by_cases here : t' = t
    · subst here
      rw [is] at is'
      cases is'
      rw [update_self] at on'
      cases on'
    · rw [others t' q' _ is' here] at on'
      rcases List.mem_cons.mp (perm.mem_iff.mp (shape.sent t' q' is' on')) with same | rest
      · exact absurd (shape.apart t' t q' q _ _ q'.i0 is' is (by simp [Req.idx]) (by simp [Req.idx, same, first])) here
      · exact rest
  · intro id member
    apply shape.done
    rw [contents]
    rcases List.mem_append.mp member with early | late
    · exact List.mem_append_left _ early
    · exact List.mem_append_right _ (List.mem_cons_of_mem _ late)

end

/-- Another thread's phase, where one thread has moved on. -/
theorem other {req' : τ → Option (Req β × Phase)} {x : Option (Req β × Phase)} (moved : req' = update req t x) {t' : τ}
    {q' : Req β} {ph' : Phase}
    (is' : req' t' = some (q', ph')) : t' = t ∧ x = some (q', ph') ∨ t' ≠ t ∧ req t' = some (q', ph') := by
  rw [moved] at is'
  by_cases here : t' = t
  · subst here
    rw [update_self] at is'
    exact .inl ⟨rfl, is'⟩
  · rw [update_of_ne here] at is'
    exact .inr ⟨here, is'⟩

/-- The request of `t` becomes `x`; the requests of the others keep their buffers and
descriptors. -/
theorem turn (shape : Shape disk device busy req) {busy' : β → Bool} {x : Option (Req β × Phase)}
    (mine : ∀ q ph, x = some (q, ph) → (q.idx.Nodup ∧ ∀ i ∈ q.idx, i < NUM ∧ disk'.free i = false) ∧
      (ph ≠ .new → Formatted disk' q) ∧
      (ph ≠ .new → busy' q.b = true) ∧ ∀ t' q' ph', t' ≠ t → req t' = some (q', ph') →
      q.b ≠ q'.b ∧ ∀ i ∈ q.idx, i ∉ q'.idx)
    (others : ∀ t' q' ph', t' ≠ t → req t' = some (q', ph') → busy' q'.b = busy q'.b ∧
      (disk'.info q'.i0).b = (disk.info q'.i0).b ∧
      ∀ i ∈ q'.idx, disk'.free i = disk.free i ∧ disk'.desc i = disk.desc i)
    (taken : ∀ i < NUM, disk'.free i = false → (∃ q ph, x = some (q, ph) ∧ i ∈ q.idx) ∨
      disk.free i = false ∧ ∀ q ph, req t = some (q, ph) → i ∉ q.idx)
    (idle : ∀ q, req t = some (q, .sent) → busy q.b = false) (avail : disk'.avail.Counted U16)
    (used : disk'.used.Counted U16)
    (nodup : (heads disk' device).Nodup)
    (mem : ∀ id, id ∈ heads disk' device ↔ id ∈ heads disk device ∨ ∃ q, x = some (q, .sent) ∧ q.i0 = id)
    (done : ∀ id ∈ device.finished ++ disk'.used.contents NUM U16, (disk'.info id).status = 0) :
    Shape disk' device busy' (update req t x) := by
  constructor
  · intro t' q' ph' is'
    rcases other rfl is' with ⟨_, eq⟩ | ⟨ne, old⟩
    · exact (mine q' ph' eq).1
    · obtain ⟨nodup, held⟩ := shape.descs t' q' ph' old
      exact ⟨nodup, fun i member =>
        ⟨(held i member).1, (((others t' q' ph' ne old).2.2 i member).1).trans (held i member).2⟩⟩
  · intro a b qa qb pa pb i isA isB inA inB
    rcases other rfl isA with ⟨hereA, eqA⟩ | ⟨neA, oldA⟩ <;> rcases other rfl isB with ⟨hereB, eqB⟩ | ⟨neB, oldB⟩
    · exact hereA.trans hereB.symm
    · exact absurd inB (((mine qa pa eqA).2.2.2 b qb pb neB oldB).2 i inA)
    · exact absurd inA (((mine qb pb eqB).2.2.2 a qa pa neA oldA).2 i inB)
    · exact shape.apart a b qa qb pa pb i oldA oldB inA inB
  · intro i range held
    rcases taken i range held with ⟨q, ph, eq, member⟩ | ⟨old, notMine⟩
    · exact ⟨t, q, ph, (update_self ..).trans eq, member⟩
    · obtain ⟨t', q', ph', is', member⟩ := shape.taken i range old
      have ne : t' ≠ t := by
        rintro rfl
        exact notMine q' ph' is' member
      exact ⟨t', q', ph', (update_of_ne ne ..).trans is', member⟩
  · intro a b qa qb pa pb isA isB same
    rcases other rfl isA with ⟨hereA, eqA⟩ | ⟨neA, oldA⟩ <;> rcases other rfl isB with ⟨hereB, eqB⟩ | ⟨neB, oldB⟩
    · exact hereA.trans hereB.symm
    · exact absurd same ((mine qa pa eqA).2.2.2 b qb pb neB oldB).1
    · exact absurd same.symm ((mine qb pb eqB).2.2.2 a qa pa neA oldA).1
    · exact shape.buffers a b qa qb pa pb oldA oldB same
  · intro t' q' ph' is' begun
    rcases other rfl is' with ⟨_, eq⟩ | ⟨ne, old⟩
    · exact (mine q' ph' eq).2.1 begun
    · obtain ⟨_, info, descs⟩ := others t' q' ph' ne old
      exact (shape.formatted t' q' ph' old begun).congr (fun i member => (descs i member).2) info
  · exact avail
  · exact used
  · exact nodup
  · intro t' q' is'
    rcases other rfl is' with ⟨_, eq⟩ | ⟨ne, old⟩
    · exact (mine q' _ eq).2.2.1 (by decide)
    · exact (others t' q' _ ne old).1.trans (shape.ready t' q' old)
  · intro id member
    rcases (mem id).mp member with old | ⟨q, eq, same⟩
    · obtain ⟨t', q', is', same, on⟩ := shape.member id old
      have ne : t' ≠ t := by
        rintro rfl
        rw [idle q' is'] at on
        cases on
      exact ⟨t', q', (update_of_ne ne ..).trans is', same, (others t' q' _ ne is').1.trans on⟩
    · exact ⟨t, q, (update_self ..).trans eq, same, (mine q _ eq).2.2.1 (by decide)⟩
  · intro t' q' is' on
    refine (mem _).mpr ?_
    rcases other rfl is' with ⟨_, eq⟩ | ⟨ne, old⟩
    · exact .inr ⟨q', eq, rfl⟩
    · exact .inl (shape.sent t' q' old ((others t' q' _ ne old).1.symm.trans on))
  · exact done

/-- A thread gets three free descriptors. -/
theorem alloc (shape : Shape disk device busy req) (idle : req t = none) (fresh : Fresh disk q.idx)
    (buffer : ∀ t' q' ph', req t' = some (q', ph') → q'.b ≠ q.b) :
    Shape (disk.mark q.idx false) device busy (update req t (some (q, .new))) := by
  have clash : ∀ t' q' ph' i, req t' = some (q', ph') → i ∈ q'.idx → i ∉ q.idx := by
    intro t' q' ph' i is' mine member
    have used := ((shape.descs t' q' ph' is').2 i mine).2
    rw [(fresh.2 i member).2] at used
    cases used
  apply shape.turn
  · rintro q' ph' ⟨⟩
    refine ⟨⟨fresh.1, fun i member => ⟨(fresh.2 i member).1, by simp [Disk.mark, member]⟩⟩, fun no => absurd rfl no,
      fun no => absurd rfl no, ?_⟩
    exact fun t' q' ph' _ old => ⟨(buffer t' q' ph' old).symm, fun i inQ inQ' => clash t' q' ph' i old inQ' inQ⟩
  · exact fun t' q' ph' _ old => ⟨rfl, rfl, fun i member => ⟨by simp [Disk.mark, clash t' q' ph' i old member], rfl⟩⟩
  · intro i range used
    by_cases member : i ∈ q.idx
    · exact .inl ⟨q, .new, rfl, member⟩
    · exact .inr ⟨by simpa [Disk.mark, member] using used, fun q' ph' is => by cases idle.symm.trans is⟩
  · exact fun q' is => by cases idle.symm.trans is
  · exact shape.avail
  · exact shape.used
  · exact shape.nodup
  · exact fun id => ⟨.inl, fun member => member.resolve_right fun ⟨_, no, _⟩ => by cases no⟩
  · exact shape.done

/-- Descriptors that nobody has are reset. -/
theorem reset (shape : Shape disk device busy req) (desc : Nat → Desc β)
    (same : ∀ i, disk.free i = false → desc i = disk.desc i) :
    Shape { disk with desc := desc } device busy req := by
  refine ⟨shape.descs, shape.apart, shape.taken, shape.buffers, ?_, shape.avail, shape.used, shape.nodup, shape.ready,
    shape.member, shape.sent,
    shape.done⟩
  intro t q ph is begun
  exact (shape.formatted t q ph is begun).congr (fun i member => same i ((shape.descs t q ph is).2 i member).2) rfl

theorem format_other (disk : Disk β) (q : Req β) (sector : Nat) (other : i ∉ q.idx) :
    (disk.format q sector).desc i = disk.desc i ∧ (disk.format q sector).info i = disk.info i := by
  simp only [Req.idx, List.mem_cons, List.not_mem_nil, or_false, not_or] at other
  simp [Disk.format, other]

theorem format_self (disk : Disk β) (q : Req β) (sector : Nat) (nodup : q.idx.Nodup) :
    Formatted (disk.format q sector) q := by
  simp only [Req.idx, List.nodup_cons, List.mem_cons, List.not_mem_nil, or_false, not_or] at nodup
  obtain ⟨⟨apart, apart'⟩, last, -⟩ := nodup
  refine ⟨?_, ?_, ?_, ?_⟩
  · simp [Disk.format, apart, apart']
  · cases write : q.write <;> simp [Disk.format, last, write]
  · simp [Disk.format]
  · simp [Disk.format]

/-- The buffer and the descriptors of another request are others. -/
theorem distinct (shape : Shape disk device busy req) (is : req t = some (q, ph)) (t' : τ) (q' : Req β)
    (ph' : Phase) (ne : t' ≠ t) (is' : req t' = some (q', ph')) : q.b ≠ q'.b ∧ ∀ i ∈ q.idx, i ∉ q'.idx :=
  ⟨fun same => ne (shape.buffers t' t q' q ph' ph is' is same.symm), fun i inQ inQ' =>
    ne (shape.apart t' t q' q ph' ph i is' is inQ' inQ)⟩

/-- A descriptor in use stays with its request. -/
theorem still (is : req t = some (q, ph)) (ph' : Phase) (held : disk.free i = false) :
    (∃ q' ph'', some (q, ph') = some (q', ph'') ∧ i ∈ q'.idx) ∨ disk.free i = false ∧
    ∀ q' ph'', req t = some (q', ph'') → i ∉ q'.idx := by
  by_cases member : i ∈ q.idx
  · exact .inl ⟨q, ph', rfl, member⟩
  · refine .inr ⟨held, fun q' ph'' is' => ?_⟩
    cases is.symm.trans is'
    exact member

variable (shape : Shape disk device busy req)
include shape

/-- The descriptors of a request are formatted. -/
theorem format (is : req t = some (q, .new)) (sector : Nat) :
    Shape (disk.format q sector) device (update busy q.b true) (update req t (some (q, .ready))) := by
  have mine := shape.descs t q .new is
  have outside := shape.absent is (by simp)
  have distinct := shape.distinct is
  apply shape.turn
  · rintro q' ph' ⟨⟩
    exact ⟨mine, fun _ => format_self disk q sector mine.1, fun _ => update_self .., distinct⟩
  · intro t' q' ph' ne old
    obtain ⟨buffer, apart⟩ := distinct t' q' ph' ne old
    have same := fun i (member : i ∈ q'.idx) => format_other disk q sector fun inQ => apart i inQ member
    exact ⟨update_of_ne buffer.symm .., by rw [(same q'.i0 (by simp [Req.idx])).2], fun i member =>
      ⟨rfl, (same i member).1⟩⟩
  · exact fun i _ held => still is .ready held
  · exact fun q' is' => by cases is.symm.trans is'
  · exact shape.avail
  · exact shape.used
  · exact shape.nodup
  · exact fun id => ⟨.inl, fun member => member.resolve_right fun ⟨_, no, _⟩ => by cases no⟩
  · intro id member
    have ne : id ≠ q.i0 := by
      rintro rfl
      exact outside (List.mem_append_right _ (List.mem_append_right _ member))
    change (update disk.info q.i0 _ id).status = 0
    rw [update_of_ne ne]
    exact shape.done id member

/-- A request goes from one phase to the next, and its descriptors stay. -/
theorem advance (is : req t = some (q, .ready)) {ph' : Phase} (avail : disk'.avail.Counted U16)
    (same : disk' = { disk with avail := disk'.avail }) (nodup : (heads disk' device).Nodup)
    (mem : ∀ id, id ∈ heads disk' device ↔ id ∈ heads disk device ∨ ph' = .sent ∧ q.i0 = id) :
    Shape disk' device busy (update req t (some (q, ph'))) := by
  have on := shape.ready t q is
  rw [same] at nodup mem ⊢
  apply shape.turn
  · rintro q' ph'' ⟨⟩
    exact ⟨shape.descs t q _ is, fun _ => (shape.formatted t q _ is (by decide)).congr (fun _ _ => rfl) rfl,
      fun _ => on, shape.distinct is⟩
  · exact fun t' q' ph'' _ _ => ⟨rfl, rfl, fun _ _ => ⟨rfl, rfl⟩⟩
  · exact fun i _ held => still is ph' held
  · exact fun q' is' => by cases is.symm.trans is'
  · exact avail
  · exact shape.used
  · exact nodup
  · intro id
    rw [mem]
    simp [and_assoc]
  · exact shape.done

/-- The head is written into the ring of the device; the device has consumed what was there. -/
theorem write (is : req t = some (q, .ready)) :
    Shape { disk with avail :=
      { disk.avail with data := update disk.avail.data (disk.avail.nwrite % NUM) q.i0 } } device busy
      (update req t (some (q, .ready))) ∧ disk.avail.size U16 < NUM := by
  have room : disk.avail.size U16 < NUM :=
    Nat.lt_of_le_of_lt (avail_le disk device)
      (shape.few ((shape.descs t q _ is).2 q.i0 (by simp [Req.idx])).1 (shape.absent is fun no => by cases no))
  have same := shape.avail.contents_write (N := NUM) num_dvd q.i0 room
  have heads' : heads { disk with avail :=
      { disk.avail with data := update disk.avail.data (disk.avail.nwrite % NUM) q.i0 } } device =
      heads disk device := by
    rw [heads, heads, same]
  refine ⟨shape.advance is ⟨shape.avail.nread, shape.avail.nwrite⟩ rfl ?_ ?_, room⟩
  · rw [heads']
    exact shape.nodup
  · intro id
    simp [heads']

/-- The device is told of a head. -/
theorem bump (is : req t = some (q, .ready)) (written : disk.avail.data (disk.avail.nwrite % NUM) = q.i0) :
    Shape { disk with avail := { disk.avail with nwrite := (disk.avail.nwrite + 1) % U16 } } device busy
      (update req t (some (q, .sent))) := by
  have outside := shape.absent is fun no => by cases no
  have room : disk.avail.size U16 < NUM :=
    Nat.lt_of_le_of_lt (avail_le disk device) (shape.few ((shape.descs t q _ is).2 q.i0 (by simp [Req.idx])).1 outside)
  have push : disk.avail.push NUM U16 q.i0 = { disk.avail with nwrite := (disk.avail.nwrite + 1) % U16 } := by
    rw [RingBuf.push, ← written, update_eq_self]
  have contents := shape.avail.contents_push num_dvd num_lt q.i0 room
  rw [push] at contents
  have perm : (heads { disk with avail := { disk.avail with nwrite := (disk.avail.nwrite + 1) % U16 } } device).Perm
    (q.i0 :: heads disk device) := by
    rw [heads, heads, contents]
    simp
  have counted := shape.avail.push (N := NUM) q.i0
  rw [push] at counted
  refine shape.advance is counted rfl ?_ ?_
  · exact perm.nodup_iff.mpr (List.nodup_cons.mpr ⟨outside, shape.nodup⟩)
  · intro id
    rw [perm.mem_iff, List.mem_cons, or_comm]
    simp [eq_comm]

/-- A request is over: its descriptors are free again. -/
theorem free (is : req t = some (q, .sent)) (done : busy q.b = false) (info : Nat → Info β)
    (same : ∀ i, i ≠ q.i0 → info i = disk.info i) (status : (info q.i0).status = (disk.info q.i0).status) :
    Shape ({ disk with info := info }.clear q.idx) device busy (update req t none) := by
  have distinct := shape.distinct is
  have status' : ∀ i, (info i).status = (disk.info i).status := by
    intro i
    by_cases here : i = q.i0
    · rw [here, status]
    · rw [same i here]
  apply shape.turn
  · exact by simp
  · intro t' q' ph' ne old
    have apart : ∀ i ∈ q'.idx, i ∉ q.idx := fun i inQ' inQ => (distinct t' q' ph' ne old).2 i inQ inQ'
    have first : q'.i0 ≠ q.i0 := fun eq => apart q'.i0 (by simp [Req.idx]) (by simp [Req.idx, eq])
    exact ⟨rfl, congrArg Info.b (same q'.i0 first), fun i member => by simp [Disk.clear, Disk.mark, apart i member]⟩
  · intro i _ held
    have other : i ∉ q.idx := by
      intro member
      simp [Disk.clear, Disk.mark, member] at held
    refine .inr ⟨by simpa [Disk.clear, Disk.mark, other] using held, fun q' ph' is' => ?_⟩
    cases is.symm.trans is'
    exact other
  · intro q' is'
    cases is.symm.trans is'
    exact done
  · exact shape.avail
  · exact shape.used
  · exact shape.nodup
  · exact fun id => ⟨.inl, fun member => member.resolve_right fun ⟨_, no, _⟩ => by cases no⟩
  · exact fun id member => (status' id).trans (shape.done id member)

end Shape

/-! ## Steps -/

/-- The thread is between `acquire` and `release`. -/
def Thread.critical : Thread β → Bool
  | .alloc _ _ .alloc | .rw _ .format | .rw _ .ring | .rw _ .bump | .rw _ .test | .intr true => true
  | _ => false

structure Inv (s : State τ β δ) : Prop where
  shape : Shape s.disk s.device s.busy fun t => (s.thread t).request
  buffers : ∀ t t' b, (s.thread t).buffer = some b → (s.thread t').buffer = some b → t = t'
  holder : ∀ t, (s.thread t).critical = true → s.lock = some t
  written : ∀ t q, s.thread t = .rw q .bump → s.disk.avail.data (s.disk.avail.nwrite % NUM) = q.i0

/-- A thread that was woken, or not. -/
structure Same (k k' : Thread β) : Prop where
  request : k'.request = k.request
  buffer : k'.buffer = k.buffer
  critical : k'.critical = k.critical
  bump : ∀ q, k' = .rw q .bump → k = .rw q .bump

theorem Same.refl (k : Thread β) : Same k k := ⟨rfl, rfl, rfl, fun _ => id⟩

theorem Same.wakeAlloc (k : Thread β) : Same k k.wakeAlloc := by
  rcases k with _ | ⟨b, write, pc⟩ | ⟨q, pc⟩ | locked
  · exact .refl _
  · cases pc
    case asleep => exact ⟨rfl, rfl, rfl, fun _ no => by cases no⟩
    all_goals exact .refl _
  · exact .refl _
  · exact .refl _

theorem Same.wakeBuf (b : β) (k : Thread β) : Same k (k.wakeBuf b) := by
  rcases k with _ | ⟨b', write, pc⟩ | ⟨q, pc⟩ | locked
  · exact .refl _
  · exact .refl _
  · cases pc
    case asleep =>
      simp only [Thread.wakeBuf]
      split
      · exact ⟨rfl, rfl, rfl, by simp⟩
      · exact .refl _
    all_goals exact .refl _
  · exact .refl _

variable {s s' : State τ β δ} {t : τ} {k : Thread β}

/-- A request that is on its way stays with its thread. -/
def Kept (s s' : State τ β δ) : Prop :=
  ∀ t q, (s.thread t).request = some (q, .sent) → s.busy q.b = true → (s'.thread t).request = some (q, .sent)

/-- One thread moves on to `k`, and may wake others. -/
theorem Inv.move (inv : Inv s) {g : τ → Thread β} (wakes : ∀ t', Same (s.thread t') (g t'))
    (thread : s'.thread = update g t k)
    (shape : Shape s'.disk s'.device s'.busy (update (fun t => (s.thread t).request) t k.request))
    (buffer : ∀ b, k.buffer = some b → ∀ t', t' ≠ t → (s.thread t').buffer ≠ some b)
    (mine : k.critical = true → s'.lock = some t)
    (theirs : ∀ t', t' ≠ t → s.lock = some t' → s'.lock = some t' ∧ s'.disk.avail.data = s.disk.avail.data ∧
      s'.disk.avail.nwrite = s.disk.avail.nwrite)
    (written : ∀ q, k = .rw q .bump → s'.disk.avail.data (s'.disk.avail.nwrite % NUM) = q.i0)
    (stays : ∀ q, (s.thread t).request = some (q, .sent) → s.busy q.b = true → k.request = some (q, .sent)) :
    Inv s' ∧ Kept s s' := by
  have self : s'.thread t = k := by rw [thread, update_self]
  have others : ∀ t', t' ≠ t → Same (s.thread t') (s'.thread t') := by
    intro t' ne
    rw [thread, update_of_ne ne]
    exact wakes t'
  have requests : (fun t => (s'.thread t).request) = update (fun t => (s.thread t).request) t k.request := by
    funext t'
    by_cases here : t' = t
    · subst here
      rw [update_self, self]
    · rw [update_of_ne here, (others t' here).request]
  refine ⟨⟨by rw [requests]; exact shape, ?_, ?_, ?_⟩, ?_⟩
  · intro a b x isA isB
    by_cases hereA : a = t <;> by_cases hereB : b = t
    · exact hereA.trans hereB.symm
    · subst hereA
      rw [self] at isA
      rw [(others b hereB).buffer] at isB
      exact absurd isB (buffer x isA b hereB)
    · subst hereB
      rw [self] at isB
      rw [(others a hereA).buffer] at isA
      exact absurd isA (buffer x isB a hereA)
    · rw [(others a hereA).buffer] at isA
      rw [(others b hereB).buffer] at isB
      exact inv.buffers a b x isA isB
  · intro t' holds
    by_cases here : t' = t
    · subst here
      rw [self] at holds
      exact mine holds
    · rw [(others t' here).critical] at holds
      exact (theirs t' here (inv.holder t' holds)).1
  · intro t' q is
    by_cases here : t' = t
    · subst here
      rw [self] at is
      exact written q is
    · have old := (others t' here).bump q is
      obtain ⟨_, data, nwrite⟩ := theirs t' here (inv.holder t' (by rw [old]; rfl))
      rw [data, nwrite]
      exact inv.written t' q old
  · intro t' q is on
    by_cases here : t' = t
    · subst here
      rw [self]
      exact stays q is on
    · rw [(others t' here).request]
      exact is

/-- The request of the thread is the same. -/
theorem Inv.move_same (inv : Inv s) {g : τ → Thread β} (wakes : ∀ t', Same (s.thread t') (g t'))
    (thread : s'.thread = update g t k)
    (request : k.request = (s.thread t).request) (shape : Shape s'.disk s'.device s'.busy fun t => (s.thread t).request)
    (buffer : ∀ b, k.buffer = some b → ∀ t', t' ≠ t → (s.thread t').buffer ≠ some b)
    (mine : k.critical = true → s'.lock = some t)
    (theirs : ∀ t', t' ≠ t → s.lock = some t' → s'.lock = some t' ∧ s'.disk.avail.data = s.disk.avail.data ∧
      s'.disk.avail.nwrite = s.disk.avail.nwrite)
    (bump : ∀ q, k ≠ .rw q .bump) : Inv s' ∧ Kept s s' := by
  refine inv.move wakes thread ?_ buffer mine theirs (fun q is => absurd is (bump q)) fun q is _ => request.trans is
  rw [request, update_eq_self t fun t => (s.thread t).request]
  exact shape

/-- The device does a step. -/
theorem Inv.device (inv : Inv s) (thread : s'.thread = s.thread) (lock : s'.lock = s.lock)
    (shape : Shape s'.disk s'.device s'.busy fun t => (s.thread t).request)
    (data : s'.disk.avail.data = s.disk.avail.data)
    (nwrite : s'.disk.avail.nwrite = s.disk.avail.nwrite) : Inv s' ∧ Kept s s' := by
  refine ⟨⟨?_, ?_, ?_, ?_⟩, fun t q is _ => by rw [thread]; exact is⟩
  · rw [thread]
    exact shape
  · rw [thread]
    exact inv.buffers
  · rw [thread, lock]
    exact inv.holder
  · rw [thread, data, nwrite]
    exact inv.written

/-- A step is safe if it does not panic, keeps the invariant and loses no request. -/
def Safe (s : State τ β δ) (o : Outcome Panic (State τ β δ)) : Prop :=
  match o with
  | .blocked => True
  | .panic _ => False
  | .next s' => Inv s' ∧ Kept s s'

theorem Inv.buffer_apart (inv : Inv s) (same : k.buffer = (s.thread t).buffer) (b : β) (is : k.buffer = some b) (t' : τ)
    (ne : t' ≠ t) :
    (s.thread t').buffer ≠ some b := by
  intro is'
  rw [same] at is
  exact ne (inv.buffers t' t b is' is)

/-- The lock keeps the others out. -/
theorem alone {P : τ → Prop} (locked : s.lock = some t) (t' : τ) (ne : t' ≠ t) (no : s.lock = some t') : P t' :=
  absurd (Option.some.inj (no.symm.trans locked)) ne

theorem Inv.acquire (inv : Inv s) (request : k.request = (s.thread t).request) (buffer : k.buffer = (s.thread t).buffer)
    (bump : ∀ q, k ≠ .rw q .bump) : Safe s (s.acquire t k) := by
  unfold State.acquire
  split
  case h_2 => trivial
  case h_1 free =>
    exact inv.move_same (fun _ => .refl _) rfl request inv.shape (inv.buffer_apart buffer) (fun _ => rfl)
      (fun t' _ no => by cases free.symm.trans no) bump

theorem Inv.rwAlloc {b : β} {write : Bool} {pc : AllocPc} (inv : Inv s) (is : s.thread t = .alloc b write pc) :
    Safe s (rwAlloc s t b write pc) := by
  have request : (s.thread t).request = none := by rw [is]; rfl
  have buffer : (s.thread t).buffer = some b := by rw [is]; rfl
  cases pc with
  | lock => exact inv.acquire request.symm buffer.symm (by simp)
  | woken => exact inv.acquire request.symm buffer.symm (by simp)
  | asleep => trivial
  | alloc =>
    have locked := inv.holder t (by rw [is]; rfl)
    unfold Virtio.rwAlloc
    rcases alloc3Desc_cases s.disk with ⟨i0, i1, i2, all, fresh⟩ | ⟨idx, d', fails, same, kept⟩
    · rw [all]
      refine inv.move (k := .rw ⟨b, write, i0, i1, i2⟩ .format) (fun _ => .refl _) rfl ?_ (inv.buffer_apart buffer.symm)
        (fun _ => locked) (alone locked) (by simp) fun q' sent _ => by cases request.symm.trans sent
      refine inv.shape.alloc (q := ⟨b, write, i0, i1, i2⟩) request fresh fun t' q' ph' is' same => ?_
      have ne : t' ≠ t := by
        rintro rfl
        cases request.symm.trans is'
      cases thread : s.thread t' with
      | rw q₁ pc₁ =>
        rw [thread] at is'
        cases is'
        exact ne (inv.buffers t' t b (by rw [thread]; exact congrArg some same) buffer)
      | _ =>
        rw [thread] at is'
        cases is'
    · rw [fails]
      have wakes : ∀ t', Same (s.thread t') ((if idx = [] then id else Thread.wakeAlloc) (s.thread t')) := by
        intro t'
        split
        · exact .refl _
        · exact .wakeAlloc _
      have moved : Safe s (.next ({ s with disk := d' }.wakeup (if idx = [] then id else Thread.wakeAlloc) |>.goto t
        (.alloc b write .asleep)).release) := by
        refine inv.move_same wakes rfl request.symm ?_ (inv.buffer_apart buffer.symm) (fun no => by cases no)
          (alone locked) (fun q no => by cases no)
        change Shape d' s.device s.busy _
        rw [same]
        exact inv.shape.reset d'.desc kept
      unfold attempt
      dsimp only
      split
      · next eq => cases eq
      · next eq =>
        cases eq
        exact moved

theorem Inv.rwBody {pc : RwPc} (inv : Inv s) (is : s.thread t = .rw q pc) : Safe s (rwBody s t q pc) := by
  have request : (s.thread t).request = some (q, pc.phase) := by rw [is]; rfl
  have buffer : (s.thread t).buffer = some q.b := by rw [is]; rfl
  cases pc with
  | format =>
    have locked := inv.holder t (by rw [is]; rfl)
    refine inv.move (k := .rw q .ring) (fun _ => .refl _) rfl ?_ (inv.buffer_apart buffer.symm)
      (fun _ => locked) (alone locked) (by simp) fun q' sent _ => by cases request.symm.trans sent
    exact inv.shape.format request _
  | ring =>
    have locked := inv.holder t (by rw [is]; rfl)
    refine inv.move (k := .rw q .bump) (fun _ => .refl _) rfl (inv.shape.write request).1
      (inv.buffer_apart buffer.symm) (fun _ => locked) (alone locked)
      (fun q' same => ?_) fun q' sent _ => by cases request.symm.trans sent
    cases same
    exact update_self ..
  | bump =>
    have locked := inv.holder t (by rw [is]; rfl)
    refine inv.move (k := .rw q .test) (fun _ => .refl _) rfl ?_ (inv.buffer_apart buffer.symm)
      (fun _ => locked) (alone locked) (by simp) fun q' sent _ => by cases request.symm.trans sent
    exact inv.shape.bump request (inv.written t q is)
  | asleep => trivial
  | woken => exact inv.acquire request.symm buffer.symm (by simp)
  | test =>
    have locked := inv.holder t (by rw [is]; rfl)
    unfold Virtio.rwBody
    cases busy : s.busy q.b with
    | true =>
      exact inv.move_same (k := .rw q .asleep) (fun _ => .refl _) rfl request.symm inv.shape
        (inv.buffer_apart buffer.symm) (fun no => by cases no) (alone locked) (by simp)
    | false =>
      obtain ⟨nodup, used⟩ := inv.shape.descs t q _ request
      have formatted := inv.shape.formatted t q _ request (by decide)
      have freed := freeChain_ok
        (d := { s.disk with info := update s.disk.info q.i0 { s.disk.info q.i0 with b := none } })
        formatted rfl nodup used
      dsimp only
      rw [freed]
      refine inv.move (k := .idle) (fun _ => .wakeAlloc _) rfl ?_ (fun b no => by cases no) (fun no =>
        by cases no) (alone locked)
        (by simp) fun q' sent on => ?_
      · refine inv.shape.free request busy _ (fun i other => update_of_ne other ..) ?_
        rw [update_self]
      · cases request.symm.trans sent
        cases busy.symm.trans on

theorem Inv.diskIntr {locked : Bool} (inv : Inv s) (is : s.thread t = .intr locked) : Safe s (diskIntr s t locked) := by
  have request : (s.thread t).request = none := by rw [is]; rfl
  cases locked with
  | false => exact inv.acquire request.symm (by rw [is]; rfl) (by simp)
  | true =>
    have locked := inv.holder t (by rw [is]; rfl)
    unfold Virtio.diskIntr
    by_cases empty : s.disk.used.nread = s.disk.used.nwrite
    · rw [if_pos empty]
      exact inv.move_same (k := .idle) (fun _ => .refl _) rfl request.symm inv.shape (fun b no => by cases no)
        (fun no => by cases no) (alone locked) (by simp)
    · obtain ⟨t', q, is', first, on, status, owner, shape⟩ := inv.shape.handled empty
      have front : s.disk.used.data (s.disk.used.nread % NUM) = q.i0 := first.symm
      rw [if_neg empty]
      dsimp only
      rw [front, status, if_neg (not_not.mpr rfl), owner]
      dsimp only
      have same : (fun t => (s.thread t).wakeBuf q.b) = update (fun t => (s.thread t).wakeBuf q.b) t (.intr true) := by
        rw [← show (s.thread t).wakeBuf q.b = .intr true by rw [is]; rfl, update_eq_self t fun t =>
          (s.thread t).wakeBuf q.b]
      exact inv.move_same (fun _ => .wakeBuf q.b _) same request.symm shape (fun b no => by cases no)
        (fun _ => locked) (alone locked) (by simp)

theorem Inv.fetch (inv : Inv s) : Safe s (fetch s) := by
  unfold Virtio.fetch
  split
  · trivial
  · next some => exact inv.device rfl rfl (inv.shape.fetch some) rfl rfl

theorem Inv.finish (inv : Inv s) (head : Nat) : Safe s (finish s head) := by
  unfold Virtio.finish
  split
  · trivial
  · next inside =>
    have member : head ∈ s.device.fetched := by simpa using inside
    obtain ⟨t, q, is, first, _⟩ := inv.shape.member head (List.mem_append_right _ (List.mem_append_left _ member))
    obtain ⟨one, two, three, owner⟩ := inv.shape.formatted t q _ is (by decide)
    -- the chain is the one its owner formatted
    subst first
    dsimp only
    rw [one.1, one.2.2, two.1, two.2.2, three.1]
    exact inv.device rfl rfl (inv.shape.finish member rfl rfl) rfl rfl

theorem Inv.publish (inv : Inv s) (head : Nat) : Safe s (publish s head) := by
  unfold Virtio.publish
  split
  · trivial
  · next inside => exact inv.device rfl rfl (inv.shape.publish (by simpa using inside)) rfl rfl

theorem Inv.step {a : Act τ β} (inv : Inv s) (distinct : Distinct s a) : Safe s (step s a) := by
  cases a with
  | rw t b write =>
    simp only [Virtio.step]
    split
    case h_2 => trivial
    case h_1 idle =>
      have request : (s.thread t).request = none := by rw [idle]; rfl
      refine inv.move_same (k := .alloc b write .lock) (fun _ => .refl _) rfl request.symm inv.shape
        (fun b' eq t' _ => ?_) (fun no => by cases no) (fun t' _ holds => ⟨holds, rfl, rfl⟩) (by simp)
      cases eq
      exact distinct t'
  | intr t =>
    simp only [Virtio.step]
    split
    case h_2 => trivial
    case h_1 idle =>
      have request : (s.thread t).request = none := by rw [idle]; rfl
      exact inv.move_same (k := .intr false) (fun _ => .refl _) rfl request.symm inv.shape (fun b' no =>
        by cases no) (fun no => by cases no)
        (fun t' _ holds => ⟨holds, rfl, rfl⟩) (by simp)
  | exec t =>
    simp only [Virtio.step]
    split
    case h_1 => trivial
    case h_2 is => exact inv.rwAlloc is
    case h_3 is => exact inv.rwBody is
    case h_4 is => exact inv.diskIntr is
  | kill t =>
    simp only [Virtio.step]
    split
    case h_3 => trivial
    all_goals
      next is =>
        exact inv.move_same (fun _ => .refl _) rfl (by rw [is]; rfl) inv.shape (inv.buffer_apart (by rw [is]; rfl))
          (fun no => by cases no) (fun t' _ holds => ⟨holds, rfl, rfl⟩) (by simp)
  | fetch => exact inv.fetch
  | finish head => exact inv.finish head
  | publish head => exact inv.publish head

theorem diskInit_inv (blockno : β → Nat) (data : β → δ) (sectors : Nat → δ) :
    Inv (diskInit blockno data sectors : State τ β δ) where
  shape := by
    have less := num_lt
    have empty : RingBuf.contents NUM U16 (⟨fun _ => 0, 0, 0⟩ : RingBuf Nat) = [] := by
      simp [RingBuf.contents, RingBuf.size]
    have none : heads (diskInit blockno data sectors : State τ β δ).disk
      (diskInit blockno data sectors : State τ β δ).device = [] := by
      simp [heads, diskInit, empty]
    refine ⟨fun _ _ _ no => (by cases no), fun _ _ _ _ _ _ _ no => (by cases no), fun i range used => ?_,
      fun _ _ _ _ _ _ no => (by cases no),
      fun _ _ _ no => (by cases no), ⟨by change 0 < U16; omega, by change 0 < U16; omega⟩,
      ⟨by change 0 < U16; omega, by change 0 < U16; omega⟩,
      by rw [none]; exact List.nodup_nil, fun _ _ no => (by cases no), fun id member => ?_, fun _ _ no =>
      (by cases no), fun id member => ?_⟩
    · simp [diskInit, range] at used
    · rw [none] at member
      exact absurd member List.not_mem_nil
    · simp [diskInit, empty] at member
  buffers := fun _ _ _ no => by cases no
  holder := fun _ no => by cases no
  written := fun _ _ no => by cases no

theorem runs_inv {blockno : β → Nat} {data : β → δ} {sectors : Nat → δ}
    (run : Runs step Distinct (diskInit blockno data sectors) s) : Inv s := by
  refine run.invariant (fun s a s' inv may moved => ?_) (diskInit_inv blockno data sectors)
  have safe := inv.step may
  rw [moved] at safe
  exact safe.1

theorem request_eq (request : k.request = some (q, .sent)) : ∃ pc, k = .rw q pc ∧ pc.phase = .sent := by
  rcases k with _ | _ | ⟨q', pc⟩ | _
  · cases request
  · cases request
  · simp only [Thread.request, Option.some.injEq, Prod.mk.injEq] at request
    obtain ⟨rfl, phase⟩ := request
    exact ⟨pc, rfl, phase⟩
  · cases request

/-- **The disk driver's protocol.**  In every state that a run of any number of processes on distinct
buffers, of the interrupt handler and of the device reaches:
* a request has three different descriptors, marked as used, and no two requests share one;
* the slot of the ring that is about to be written is not one the device has still to consume;
* the entry the handler is about to process belongs to a request that waits for it, whose buffer is the one recorded
  for it and which the device has finished, and exactly that buffer is marked as done;
* from submission until the handler has processed it, a request keeps its thread, its descriptors and its
  entry in `info`, and a request that is done waiting is no longer on its way;
* no step panics or uses a null buffer. -/
theorem disk_protocol (blockno : β → Nat) (data : β → δ) (sectors : Nat → δ) (s : State τ β δ)
    (run : Runs step Distinct (diskInit blockno data sectors) s) :
    (∀ t q pc, s.thread t = .rw q pc → q.idx.Nodup ∧ (∀ i ∈ q.idx, i < NUM ∧ s.disk.free i = false) ∧
      ∀ t' q' pc', t' ≠ t → s.thread t' = .rw q' pc' → ∀ i ∈ q.idx, i ∉ q'.idx) ∧
    (∀ t q, s.thread t = .rw q .ring → ∀ k < (s.disk.avail.nwrite + (U16 - s.disk.avail.nread)) % U16,
      (s.disk.avail.nread + k) % NUM ≠ s.disk.avail.nwrite % NUM) ∧
    (∀ t s', s.thread t = .intr true → s.disk.used.nread ≠ s.disk.used.nwrite → step s (.exec t) = .next s' →
      ∃ t' q pc, s.thread t' = .rw q pc ∧ pc.phase = .sent ∧ q.i0 = s.disk.used.data (s.disk.used.nread % NUM) ∧
      s.busy q.b = true ∧
        q.i0 ∉ s.disk.avail.contents NUM U16 ++ s.device.fetched ∧ (s.disk.info q.i0).status = 0 ∧
        s'.busy = update s.busy q.b false) ∧
    (∀ t q pc, s.thread t = .rw q pc → q.i0 ∈ heads s.disk s.device → ∀ a s', Distinct s a → step s a = .next s' →
      (∃ pc', s'.thread t = .rw q pc') ∧ Formatted s'.disk q ∧ ∀ i ∈ q.idx, s'.disk.free i = false) ∧
    (∀ t q pc, s.thread t = .rw q pc → pc.phase = .sent → (s.busy q.b = true ↔ q.i0 ∈ heads s.disk s.device)) ∧
    ∀ a e, Distinct s a → step s a ≠ .panic e := by
  have inv := runs_inv run
  have request : ∀ {t q pc}, s.thread t = .rw q pc → (s.thread t).request = some (q, pc.phase) :=
    fun is => by rw [is]; rfl
  have waits : ∀ {t q pc}, s.thread t = .rw q pc → q.i0 ∈ heads s.disk s.device →
    pc.phase = .sent ∧ s.busy q.b = true := by
    intro t q pc is member
    by_contra not
    refine inv.shape.absent (request is) (fun sent => ?_) member
    simpa [sent] using not
  refine ⟨fun t q pc is => ?_, fun t q is k below => ?_, fun t s' is some moved => ?_,
    fun t q pc is member a s' distinct moved => ?_,
    fun t q pc is sent => ?_, fun a e distinct panics => ?_⟩
  · obtain ⟨nodup, used⟩ := inv.shape.descs t q _ (request is)
    exact ⟨nodup, used, fun t' q' pc' ne is' i mine theirs =>
      ne (inv.shape.apart t' t q' q _ _ i (request is') (request is) theirs mine)⟩
  · have room := (inv.shape.write (request is)).2
    have inside : k < s.disk.avail.size U16 := below
    intro same
    have equal := RingBuf.mod_inj (M := NUM) (by omega) (by omega) (same.trans (inv.shape.avail.slot_size num_dvd).symm)
    omega
  · obtain ⟨t', q, is', first, on, status, owner, shape⟩ := inv.shape.handled some
    obtain ⟨pc, thread, phase⟩ := request_eq is'
    refine ⟨t', q, pc, thread, phase, first, on, fun early => ?_, status, ?_⟩
    · -- it stands in the ring of the handler, and heads do not repeat
      have nodup := inv.shape.nodup
      have late : q.i0 ∈ s.disk.used.contents NUM U16 := by
        rw [inv.shape.used.contents_pop num_dvd some, first]
        exact List.mem_cons_self
      rw [heads, ← List.append_assoc] at nodup
      exact (List.nodup_append.mp nodup).2.2 q.i0 early q.i0 (List.mem_append_right _ late) rfl
    · have front : s.disk.used.data (s.disk.used.nread % NUM) = q.i0 := first.symm
      simp only [step, is, diskIntr] at moved
      rw [if_neg some, front, status, if_neg (not_not.mpr rfl), owner] at moved
      cases moved
      rfl
  · obtain ⟨phase, on⟩ := waits is member
    have safe := inv.step distinct
    rw [moved] at safe
    have now := safe.2 t q (by rw [request is, phase]) on
    obtain ⟨pc', thread, _⟩ := request_eq now
    exact ⟨⟨pc', thread⟩, safe.1.shape.formatted t q _ now (by decide), fun i mine =>
      ((safe.1.shape.descs t q _ now).2 i mine).2⟩
  · exact ⟨fun on => inv.shape.sent t q (by rw [request is, sent]) on, fun member => (waits is member).2⟩
  · have safe := inv.step distinct
    rw [panics] at safe
    exact safe

instance [Fintype τ] (s : State τ β δ) (a : Act τ β) : Decidable (Distinct s a) := by
  cases a <;> unfold Distinct <;> infer_instance

/-- Process 0 writes block 1 and process 1 reads block 2; the device finishes the second request
first, and the handler processes its entry. -/
theorem disk_protocol_sample : ∃ s s' : State (Fin 3) (Fin 2) Nat,
    Runs step Distinct (diskInit (fun b => b.val + 1) (fun b => b.val) fun sector => sector) s ∧
    s.data 1 = 4 ∧ step s (.exec 2) = .next s' ∧ s'.busy 0 = true ∧ s'.busy 1 = false ∧
    ∃ t' q pc, s.thread t' = .rw q pc ∧ q.i0 = s.disk.used.data (s.disk.used.nread % NUM) ∧
    s'.busy = update s.busy q.b false := by
  obtain ⟨s, run, is, some, data, moves⟩ := play_reaches (by decide +kernel :
    (play (guarded step Distinct) (diskInit (fun b => b.val + 1) (fun b => b.val) (fun sector => sector) :
      State (Fin 3) (Fin 2) Nat)
      [.rw 0 0 true, .rw 1 1 false, .exec 0, .exec 0, .exec 0, .exec 0, .exec 0, .exec 0, .exec 1, .exec 1, .exec 1,
        .exec 1, .fetch, .exec 1, .exec 1,
        .fetch, .finish 3, .publish 3, .intr 2, .exec 2]).Reaches
      fun s => s.thread 2 = .intr true ∧ s.disk.used.nread ≠ s.disk.used.nwrite ∧ s.data 1 = 4 ∧
        (step s (.exec 2)).Reaches fun s' => s'.busy 0 = true ∧ s'.busy 1 = false)
  cases moved : step s (.exec 2) with
  | blocked => rw [moved] at moves; exact moves.elim
  | panic e => rw [moved] at moves; exact moves.elim
  | next s' =>
    rw [moved] at moves
    obtain ⟨t', q, pc, thread, _, head, _, _, _, busy⟩ := (disk_protocol _ _ _ s run).2.2.1 2 s' is some moved
    exact ⟨s, s', run, data, moved, moves.1, moves.2, t', q, pc, thread, head, busy⟩

end Xv6.Kernel.Virtio
