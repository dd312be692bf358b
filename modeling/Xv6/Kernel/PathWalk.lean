/-
# Kernel.PathWalk -- what a path names

The elements `skipelem` cuts off a path are the parts between its slashes
(`components`).  `walk` looks names up one after another, starting at an inode;
`namex` follows the same inodes, taking a reference to the next one before it gives
up the one it has, so `namei` returns what `walk` finds, and `nameiparent` the
directory before the last name.

Giving up a reference can free an inode that has no link left.  While a path is
followed this must not happen to an inode of the path, so allocated inodes without
links have to be in use elsewhere: in the image `nested 0` this fails, and a path that
comes back to a freed directory panics.
-/
import Xv6.Kernel.Image

namespace Xv6.Kernel.Fs

open Xv6.Theory Xv6.Theory.Prog

set_option autoImplicit false

/-! ## Elements of a path -/

/-- The parts of a path between slashes, without the empty ones, cut to `DIRSIZ`. -/
def components (path : List UInt8) : List (List UInt8) := ((path.splitOn 47).filter (· ≠ [])).map (List.take DIRSIZ)

theorem components_nil : components [] = [] := rfl

theorem components_slash (path : List UInt8) : components (47 :: path) = components path := by
  have split : (47 :: path).splitOn 47 = [] :: path.splitOn 47 :=
    @List.splitOnP_append_cons_of_forall_mem UInt8 (· == 47) [] (fun _ no => nomatch no) 47 rfl path
  unfold components
  rw [split, List.filter_cons_of_neg (by simp)]

theorem components_dropWhile (path : List UInt8) : components (path.dropWhile (· == 47)) = components path := by
  induction path with
  | nil => rfl
  | cons x rest ih =>
    by_cases slash : x = 47
    · subst slash
      rw [components_slash, List.dropWhile_cons_of_pos rfl]
      exact ih
    · rw [List.dropWhile_cons_of_neg (by simpa using slash)]

/-- One part and what comes after it. -/
theorem components_takeWhile {path : List UInt8} (some' : path.takeWhile (· != 47) ≠ []) :
    components path = (path.takeWhile (· != 47)).take DIRSIZ :: components (path.dropWhile (· != 47)) := by
  have proper : ∀ x ∈ path.takeWhile (· != 47), (x == 47) = false := by
    intro x mem
    have := List.mem_takeWhile_imp mem
    simpa using this
  have whole := List.takeWhile_append_dropWhile (p := (· != 47)) (l := path)
  cases after : path.dropWhile (· != 47) with
  | nil =>
    rw [after, List.append_nil] at whole
    have split : path.splitOn 47 = [path] := List.splitOnP_eq_singleton (by rwa [whole] at proper)
    rw [whole] at some' ⊢
    unfold components
    rw [split, List.filter_cons_of_pos (by simpa using some')]
    rfl
  | cons x rest =>
    have slash : x = 47 := by
      have head := List.head_dropWhile_not (p := (· != 47)) (l := path) (by rw [after]; simp)
      simp only [after, List.head_cons] at head
      simpa using head
    subst slash
    rw [after] at whole
    have split : path.splitOn 47 = path.takeWhile (· != 47) :: rest.splitOn 47 := by
      rw [← whole]
      rw [List.splitOn, List.splitOnP_append_cons_of_forall_mem proper 47 rfl rest, whole]
      rfl
    rw [components_slash]
    unfold components
    rw [split, List.filter_cons_of_pos (by simpa using some')]
    rfl

/-- `skipelem` gives the first component and a path with the others; that path is empty if there
are no others. -/
theorem skipelem_some {path name rest : List UInt8} (skipped : skipelem path = some (name, rest)) :
    components path = name :: components rest ∧ rest.length < path.length ∧ (rest = [] ↔ components rest = []) := by
  unfold skipelem at skipped
  dsimp only at skipped
  split at skipped
  · cases skipped
  · next some' =>
      obtain ⟨is, is'⟩ := Prod.mk.inj (Option.some.inj skipped)
      have head : ((path.dropWhile (· == 47)).head some' == 47) = false := by
        simpa using List.head_dropWhile_not (p := (· == 47)) (l := path) some'
      generalize start : path.dropWhile (· == 47) = p at *
      have shorter : p.length ≤ path.length := by
        rw [← start]
        exact (List.dropWhile_suffix _).length_le
      have first : p.takeWhile (· != 47) ≠ [] := by
        cases p with
        | nil => exact absurd rfl some'
        | cons x p =>
          rw [List.takeWhile_cons_of_pos (by simpa using head)]
          exact List.cons_ne_nil _ _
      have whole := congrArg List.length (List.takeWhile_append_dropWhile (p := (· != 47)) (l := p))
      rw [List.length_append] at whole
      have less : rest.length ≤ (p.dropWhile (· != 47)).length := by
        rw [← is']
        exact (List.dropWhile_suffix _).length_le
      have pos := List.length_pos_iff.2 first
      refine ⟨?_, by omega, ?_⟩
      · rw [← components_dropWhile path, start, components_takeWhile first, ← is, ← is', components_dropWhile]
      · constructor
        · rintro rfl
          rfl
        · intro none'
          by_contra more
          -- the rest does not begin with a slash, so it has a component
          have head' : (rest.head more == 47) = false := by
            simpa [is'] using List.head_dropWhile_not (p := (· == 47)) (l := p.dropWhile (· != 47)) (is' ▸ more)
          cases rest with
          | nil => exact more rfl
          | cons x rest =>
            rw [components_takeWhile] at none'
            · cases none'
            · rw [List.takeWhile_cons_of_pos (by simpa using head')]
              exact List.cons_ne_nil _ _

theorem skipelem_none {path : List UInt8} (skipped : skipelem path = none) : components path = [] := by
  unfold skipelem at skipped
  dsimp only at skipped
  split at skipped
  · next none' => rw [← components_dropWhile, none', components_nil]
  · cases skipped

/-- **The elements of a path** are its components, after at most as many turns as the path has
bytes. -/
theorem elementsFrom_eq {turns : Nat} {path : List UInt8} (enough : path.length ≤ turns) :
    elementsFrom turns path = components path := by
  induction turns generalizing path with
  | zero =>
    rw [List.length_eq_zero_iff.1 (Nat.le_zero.1 enough)]
    rfl
  | succ turns ih =>
    unfold elementsFrom
    cases skipped : skipelem path with
    | none => exact (skipelem_none skipped).symm
    | some r =>
      obtain ⟨name, rest⟩ := r
      obtain ⟨split, shorter, _⟩ := skipelem_some skipped
      rw [split]
      exact congrArg _ (ih (by omega))

theorem elements_eq (path : List UInt8) : elements path = components path := elementsFrom_eq (Nat.le_refl _)

/-! ## The loop of namex as it is written -/

/-- The loop of `namex` with `skipelem` in its head: the path is what is left of it. -/
def namexLoop (sb : Superblock) (parent : Bool) : Nat → List UInt8 → Nat → Op (Option (Nat × List UInt8))
  | 0, _, _ => return none
  | turns + 1, path, ip =>
    match skipelem path with
    | none => do
        if parent then
          iput sb ip
          return none
        else return some (ip, [])
    | some (name, path) => do
        ilock sb ip
        if (← inode ip).din.type ≠ T_DIR then
          iunlockput sb ip
          return none
        else if parent ∧ path = [] then
          iunlock ip
          return some (ip, name)
        else
          match ← dirlookup sb ip name with
          | none =>
            iunlockput sb ip
            return none
          | some (next, _) =>
            iunlockput sb ip
            namexLoop sb parent turns path next

theorem namexLoop_eq (sb : Superblock) (parent : Bool) {turns : Nat} : ∀ {path : List UInt8}
    {ip : Nat}, path.length < turns →
    namexLoop sb parent turns path ip = namexFrom sb parent (elements path) ip := by
  induction turns with
  | zero =>
    intro path ip enough
    cases enough
  | succ turns ih =>
    intro path ip enough
    unfold namexLoop
    rw [elements_eq]
    cases skipped : skipelem path with
    | none =>
      rw [skipelem_none skipped]
      rfl
    | some r =>
      obtain ⟨name, rest⟩ := r
      obtain ⟨split, shorter, last⟩ := skipelem_some skipped
      rw [split]
      conv_lhs => simp only [last, ih (show rest.length < turns by omega), elements_eq]
      rfl

/-- The path "/a//b" has two elements. -/
theorem namexLoop_eq_sample : elements [47, 97, 47, 47, 98] = [[97], [98]] ∧
    namexLoop smallDisk false 6 [47, 97, 47, 47, 98] 1 = namexFrom smallDisk false [[97], [98]] 1 := by
  have split : elements [47, 97, 47, 47, 98] = [[97], [98]] := by decide
  refine ⟨split, ?_⟩
  rw [← split]
  exact namexLoop_eq _ _ (by decide)

/-! ## Looking names up -/

section

variable (F : Nat → File)

/-- The inode a name stands for in a directory. -/
def step (ip : Nat) (name : List UInt8) : Option Nat :=
  if (F ip).type = T_DIR then (entries (F ip).bytes).lookup (cname name) else none

/-- Names are looked up one after another. -/
def walk (ip : Nat) (names : List (List UInt8)) : Option Nat := names.foldlM (step F) ip

/-- The directory in which the last name is looked up, and that name. -/
def parentOf (ip : Nat) (names : List (List UInt8)) : Option (Nat × List UInt8) :=
  match names.getLast?, walk F ip names.dropLast with
  | some name, some dp => if (F dp).type = T_DIR then some (dp, name) else none
  | _, _ => none

/-- What `namex` returns. -/
def resolve (parent : Bool) (ip : Nat) (names : List (List UInt8)) : Option (Nat × List UInt8) :=
  if parent then parentOf F ip names else (walk F ip names).map fun ip => (ip, [])

end

section

variable {F : Nat → File} {ip : Nat} {name : List UInt8} {rest : List (List UInt8)} {parent : Bool}

theorem walk_cons : walk F ip (name :: rest) = (step F ip name).bind fun next => walk F next rest := by
  unfold walk
  rw [List.foldlM_cons]
  rfl

theorem parentOf_cons (more : rest ≠ []) :
    parentOf F ip (name :: rest) = (step F ip name).bind fun next => parentOf F next rest := by
  unfold parentOf
  rw [List.getLast?_cons_of_ne_nil more, List.dropLast_cons_of_ne_nil more, walk_cons]
  cases step F ip name with
  | none => cases rest.getLast? <;> rfl
  | some next => rfl

/-- The last step of a path is a lookup in the directory before it. -/
theorem walk_eq_parentOf {names : List (List UInt8)} (some' : names ≠ []) :
    walk F ip names = (parentOf F ip names).bind fun (dp, name) => step F dp name := by
  induction names generalizing ip with
  | nil => exact absurd rfl some'
  | cons name rest ih =>
    by_cases more : rest = []
    · subst more
      rw [walk_cons]
      unfold parentOf step
      by_cases dir : (F ip).type = T_DIR
      · simp [walk, dir]
      · simp [walk, dir]
    · rw [walk_cons, parentOf_cons more, Option.bind_assoc]
      exact congrArg _ (funext fun next => ih more)

theorem parentOf_last {names : List (List UInt8)} {dp : Nat} (is : parentOf F ip names = some (dp, name)) :
    names.getLast? = some name ∧ (F dp).type = T_DIR ∧ walk F ip names.dropLast = some dp := by
  unfold parentOf at is
  split at is
  · next last up =>
      split at is
      · next dir =>
          cases is
          exact ⟨last, dir, up⟩
      · cases is
  · cases is

/-- One turn of the loop of `namex`. -/
theorem resolve_cons (dir : (F ip).type = T_DIR) (more : ¬ (parent = true ∧ rest = [])) :
    resolve F parent ip (name :: rest) =
      ((entries (F ip).bytes).lookup (cname name)).bind fun next => resolve F parent next rest := by
  have here : step F ip name = (entries (F ip).bytes).lookup (cname name) := if_pos dir
  cases parent with
  | true =>
    rw [← here]
    exact parentOf_cons fun none' => more ⟨rfl, none'⟩
  | false =>
    rw [← here]
    unfold resolve
    rw [if_neg Bool.false_ne_true, walk_cons, Option.map_bind]
    rfl

theorem resolve_file (file : (F ip).type ≠ T_DIR) : resolve F parent ip (name :: rest) = none := by
  have stops : ∀ n, step F ip n = none := fun _ => if_neg file
  cases parent with
  | true =>
    show parentOf F ip (name :: rest) = none
    by_cases more : rest = []
    · subst more
      exact if_neg file
    · rw [parentOf_cons more, stops]
      rfl
  | false =>
    show (walk F ip (name :: rest)).map _ = none
    rw [walk_cons, stops]
    rfl

end

/-! ## namex -/

/-- The inode at which a path starts. -/
def startOf (cwd : Nat) (path : List UInt8) : Nat := if path.head? = some 47 then ROOTINO else cwd

/-- The last name of a path is looked up in the directory that `nameiparent` returns. -/
def lookupLast (sb : Superblock) (cwd : Nat) (path : List UInt8) : Op (Option Nat) := do
  match ← nameiparent sb cwd path with
  | none => return none
  | some (dp, name) =>
    ilock sb dp
    match ← dirlookup sb dp name with
    | none =>
      iunlockput sb dp
      return none
    | some (ip, _) =>
      iunlockput sb dp
      return some ip

section Namex

-- no inode is freed on the way: an allocated inode without links is in use outside the call
variable {c : Ctx} {F : Nat → File} {s : State} {E : Panic → Prop} {ip : Nat} {parent : Bool}
  (entered : Entered c.sb F) (linked : ∀ i, (F i).type ≠ 0 → (F i).nlink = 0 → 0 < c.base i)
  (full : NINODE ≤ c.busy + 1 → E .igetNoInodes)

include linked in
theorem wp_iunlockput {Q : Unit → State → Prop} {loans : List Nat} (h : At c F (ip :: loans) (c.view s))
    (post : ∀ s', At c F loans (c.view s') → Q () s') : wp (iunlockput c.sb ip) s Q E :=
  wp_bind (wp_iunlock h List.mem_cons_self (wp_iput linked h post))

include entered linked full

/-- **namexFrom** follows the walk, with a reference to the inode it has reached. -/
theorem wp_namexFrom {Q : Option (Nat × List UInt8) → State → Prop} (names : List (List UInt8)) :
    ∀ {ip : Nat} {s : State}, At c F [ip] (c.view s) → (F ip).type ≠ 0 →
    (∀ s', At c F ((resolve F parent ip names).toList.map Prod.fst) (c.view s') → Q (resolve F parent ip names) s') →
    wp (namexFrom c.sb parent names ip) s Q E := by
  induction names with
  | nil =>
    intro ip s h _ post
    cases parent with
    | true => exact wp_bind (wp_iput linked h fun s' h' => wp_pure (post s' h'))
    | false => exact wp_pure (post s h)
  | cons name rest ih =>
    intro ip s h typed post
    apply wp_bind
    apply wp_ilock h List.mem_cons_self typed
    intro s₁ h₁ cached
    refine wp_bind (wp_inode ?_)
    rw [h₁.type_inode cached]
    split
    · next file =>
        rw [resolve_file file] at post
        exact wp_bind (wp_iunlockput linked h₁ fun s' h' => wp_pure (post s' h'))
    · next dir =>
        have dir : (F ip).type = T_DIR := not_not.1 dir
        split
        · next last =>
            obtain ⟨rfl, rfl⟩ := last
            have stops : resolve F true ip [name] = some (ip, name) := if_pos dir
            rw [stops] at post
            exact wp_bind (wp_iunlock h₁ List.mem_cons_self (wp_pure (post s₁ h₁)))
        · next more =>
            rw [resolve_cons dir more, Table.lookup] at post
            apply wp_bind
            apply wp_dirlookup_at h₁ cached entered dir full
            · intro missing
              rw [missing] at post
              exact wp_bind (wp_iunlockput linked h₁ fun s' h' => wp_pure (post s' h'))
            · intro i next s₂ found typed' h₂
              rw [found] at post
              exact wp_bind (wp_iunlockput linked (h₂.perm (List.Perm.swap ..)) fun s₃ h₃ => ih h₃ typed' post)

variable {cwd : Nat} {path : List UInt8} (h : At c F [] (c.view s)) (root : ROOTINO < c.sb.ninodes)
  (here : 0 < c.base cwd) (typed : (F (startOf cwd path)).type ≠ 0)
include h root here typed

/-- **namex** returns what the path names. -/
theorem wp_namex {Q : Option (Nat × List UInt8) → State → Prop}
    (post : ∀ s', At c F ((resolve F parent (startOf cwd path) (components path)).toList.map Prod.fst) (c.view s') →
      Q (resolve F parent (startOf cwd path) (components path)) s') : wp (namex c.sb cwd path parent) s Q E := by
  unfold startOf at typed post
  unfold namex
  rw [elements_eq]
  dsimp only
  split
  · next slash =>
      rw [if_pos slash] at typed post
      apply wp_bind
      apply wp_iget h ⟨by decide, root⟩ fun crowded => full (Nat.le_succ_of_le crowded)
      intro s₁ h₁
      exact wp_namexFrom entered linked full _ h₁ typed post
  · next relative =>
      rw [if_neg relative] at typed post
      have pos : 0 < (s.inode cwd).ref := by
        have refs : (s.inode cwd).ref = _ := h.refs cwd
        omega
      apply wp_bind
      apply wp_idup h pos
      intro s₁ h₁
      exact wp_namexFrom entered linked full _ h₁ typed post

/-- **namei** returns the inode a path names. -/
theorem wp_namei : wp (namei c.sb cwd path) s (fun r _ => r = walk F (startOf cwd path) (components path)) E := by
  apply wp_bind
  apply wp_namex entered linked full h root here typed
  intro s' _
  have whole : resolve F false (startOf cwd path) (components path) = (walk F (startOf cwd path) (components path)).map
    fun ip => (ip, []) := rfl
  rw [whole]
  cases walk F (startOf cwd path) (components path) with
  | none => exact wp_pure rfl
  | some ip => exact wp_pure rfl

/-- **lookupLast** finds what the whole path names. -/
theorem wp_lookupLast (some' : components path ≠ []) :
    wp (lookupLast c.sb cwd path) s (fun r _ => r = walk F (startOf cwd path) (components path)) E := by
  rw [walk_eq_parentOf some']
  apply wp_bind
  apply wp_namex entered linked full h root here typed
  intro s₁ h₁
  have parent : resolve F true (startOf cwd path) (components path) =
    parentOf F (startOf cwd path) (components path) := rfl
  rw [parent] at h₁ ⊢
  cases is : parentOf F (startOf cwd path) (components path) with
  | none => exact wp_pure rfl
  | some r =>
    obtain ⟨dp, name⟩ := r
    rw [is] at h₁
    have dir := (parentOf_last is).2.1
    have value : step F dp name = (entries (F dp).bytes).lookup (cname name) := if_pos dir
    apply wp_bind
    apply wp_ilock h₁ List.mem_cons_self (by rw [dir]; decide)
    intro s₂ h₂ cached
    apply wp_bind
    apply wp_dirlookup_at h₂ cached entered dir full
    · intro missing
      refine wp_bind (wp_iunlockput linked h₂ fun s' _ => wp_pure ?_)
      show none = step F dp name
      rw [value, Table.lookup, missing]
      rfl
    · intro i ip s₃ found _ h₃
      refine wp_bind (wp_iunlockput linked (h₃.perm (List.Perm.swap ..)) fun s' _ => wp_pure ?_)
      show some ip = step F dp name
      rw [value, Table.lookup, found]
      rfl

end Namex

/-! ## Paths in a file system -/

/-- A file system with the files `F`, between two calls. -/
structure Volume (sb : Superblock) (start : Nat) (F : Nat → File) (s : State) : Prop where
  good : Good sb start (view sb start s)
  files : ∀ i, (view sb start s).file sb i = F i
  dense : ∀ i, (F i).type = T_DIR → (view sb start s).Dense sb i
  entered : Entered sb F
  root : ROOTINO < sb.ninodes ∧ (F ROOTINO).type ≠ 0

/-- A call that starts in `s`. -/
def Ctx.of (sb : Superblock) (start : Nat) (s : State) : Ctx := ⟨sb, start, fun i => (s.inode i).ref⟩

/-- **Path resolution agrees with itself.**  The elements of a path are its components.  `namei`
returns the inode that looking them up one after another reaches, and 0 if that stops;
`nameiparent` returns the directory before the last component and that component, and 0 if there
is none; and a lookup of the last component in that directory gives what `namei` gives.  The calls
panic only if the inode table has less than two free entries. -/
theorem namei_agrees (sb : Superblock) (start : Nat) (F : Nat → File) (s : State) (volume : Volume sb start F s)
    (cwd : Nat) (here : 0 < (s.inode cwd).ref ∧ (F cwd).type ≠ 0)
    (linked : ∀ i, (F i).type ≠ 0 → (F i).nlink = 0 → 0 < (s.inode i).ref) (path : List UInt8) :
    let names := components path
    let first := startOf cwd path
    let full := fun e : Panic => e = .igetNoInodes ∧ NINODE ≤ s.active + 1
    (∀ turns, path.length ≤ turns → elementsFrom turns path = names) ∧
    wp (namei sb cwd path) s (fun r _ => r = walk F first names) full ∧
    wp (nameiparent sb cwd path) s (fun r _ => r = parentOf F first names) full ∧
    (names = [] → parentOf F first names = none) ∧
    (names ≠ [] → wp (lookupLast sb cwd path) s (fun r _ => r = walk F first names) full ∧
      ∀ ip, walk F first names = some ip ↔ ∃ dp name, parentOf F first names = some (dp, name) ∧
        names.getLast? = some name ∧ (F dp).type = T_DIR ∧ step F dp name = some ip) := by
  intro names first full
  let c := Ctx.of sb start s
  have h : At c F [] (c.view s) := ⟨volume.good, fun _ => rfl, volume.files, volume.dense⟩
  have crowded : NINODE ≤ c.busy + 1 → full .igetNoInodes := fun most =>
    ⟨rfl, by rwa [show c.busy = s.active from volume.good.active.symm] at most⟩
  have typed : (F (startOf cwd path)).type ≠ 0 := by
    unfold startOf
    split
    · exact volume.root.2
    · exact here.2
  refine ⟨fun turns enough => elementsFrom_eq enough, ?_, ?_, ?_, fun some' => ⟨?_, fun ip => ?_⟩⟩
  · exact wp_namei volume.entered linked crowded h volume.root.1 here.1 typed
  · exact wp_namex volume.entered linked crowded h volume.root.1 here.1 typed fun _ _ => rfl
  · intro none'
    rw [none']
    rfl
  · exact wp_lookupLast volume.entered linked crowded h volume.root.1 here.1 typed some'
  · rw [walk_eq_parentOf some', Option.bind_eq_some_iff]
    constructor
    · rintro ⟨⟨dp, name⟩, is, found⟩
      exact ⟨dp, name, is, (parentOf_last is).1, (parentOf_last is).2.1, found⟩
    · rintro ⟨dp, name, is, _, _, found⟩
      exact ⟨(dp, name), is, found⟩

/-! ## A directory in the root -/

/-- A root directory with a directory `a`, whose inode says that it has `links` links. -/
def nested (links : UInt16) : List (Nat × File) :=
  [(1, ⟨T_DIR, 0, 0, 1, direntList [(dot, 1), (dotdot, 1), ([97], 2)]⟩),
    (2, ⟨T_DIR, 0, 0, links, direntList [(dot, 2), (dotdot, 1)]⟩)]

/-- It is mounted, with the root as someone's current directory, and a transaction is open. -/
def nestedState (links : UInt16) : State := mounted (fileAt (nested links)) (fun i => if i = 1 then 1 else 0) 1

theorem nested_volume {links : UInt16} (laid : Laid (nested links)) :
    Volume smallDisk 4 (fileAt (nested links)) (nestedState links) where
  good := by
    apply mounted_good laid.small
    intro i pos
    split at pos
    · omega
    · cases pos
  files := mounted_files laid.small
  dense i _ := mounted_dense laid.small i
  entered := laid.entered
  root := ⟨by decide, (by decide : T_DIR ≠ 0)⟩

/-- `/a/../a/..` -/
def thereAndBack : List UInt8 := [47, 97, 47, 46, 46, 47, 97, 47, 46, 46]

theorem namei_agrees_sample :
    Volume smallDisk 4 (fileAt (nested 1)) (nestedState 1) ∧
    wp (namei smallDisk 1 thereAndBack) (nestedState 1) (fun r _ => r = some 1) (fun _ => False) := by
  have laid : Laid (nested 1) := by decide +kernel
  have volume := nested_volume laid
  have linked : ∀ i, (fileAt (nested 1) i).type ≠ 0 → (fileAt (nested 1) i).nlink = 0 →
    0 < ((nestedState 1).inode i).ref := by
    intro i typed zero
    obtain blank | mem := fileAt_cases (nested 1) i
    · rw [blank] at typed
      exact absurd rfl typed
    · have all : ∀ p ∈ nested 1, p.2.nlink ≠ 0 := by decide +kernel
      exact absurd zero (all _ mem)
  have agrees := namei_agrees smallDisk 4 (fileAt (nested 1)) (nestedState 1) volume 1 ⟨Nat.one_pos,
    by decide⟩ linked thereAndBack
  have found : walk (fileAt (nested 1)) (startOf 1 thereAndBack) (components thereAndBack) = some 1 := by decide +kernel
  refine ⟨volume, wp_mono agrees.2.1 (fun r _ is => is.trans found) fun e full => ?_⟩
  exact absurd full.2 (by decide +kernel)

/-- If the directory `a` has no link, it is freed while the path is followed and cannot be found
again: all entries name allocated inodes and the path names the root, but `namei` panics. -/
theorem namei_frees_directory :
    Volume smallDisk 4 (fileAt (nested 0)) (nestedState 0) ∧
    walk (fileAt (nested 0)) (startOf 1 thereAndBack) (components thereAndBack) = some 1 ∧
    namei smallDisk 1 thereAndBack (nestedState 0) = .error .ilockNoType := by
  refine ⟨nested_volume (by decide +kernel), by decide +kernel, ?_⟩
  have panics : (match namei smallDisk 1 thereAndBack (nestedState 0) with | .ok _ => none | .error e => some e) =
      some Panic.ilockNoType := by decide +kernel
  split at panics
  · cases panics
  · next e is =>
      rw [is, Option.some.inj panics]

end Xv6.Kernel.Fs
