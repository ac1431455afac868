import Littlefs.Lookup
import Littlefs.Lib.Normalising

/-!
# Paths as words of moves

A path is split at its slashes.  A name moves to an entry, `..` takes the last name back,
and an empty component or `.` does nothing; what is left of these moves is walked from
the root.  `lfs_dir_find` does the same with a scan at every component.
-/

namespace Littlefs

open Program Normalising

/-! ## Normal forms of paths -/

/-- A component of a path, and the text behind it. -/
structure Component where
  name : Bytes
  after : Bytes
  deriving DecidableEq, Repr

/-- The path from the component on. -/
def Component.path (component : Component) : Bytes := component.name ++ component.after

/-- A path split at its slashes. -/
def components : Bytes → List Component
  | [] => [⟨[], []⟩]
  | c :: rest =>
      if c = slash then
        ⟨[], c :: rest⟩ :: components rest
      else
        match components rest with
        | [] => []
        | first :: others => { first with name := c :: first.name } :: others

def Component.move (component : Component) : Option (Move Component) :=
  if component.name = [] ∨ component.name = [dot] then none
  else if component.name = [dot, dot] then some .pop
  else some (.push component)

def moves (path : Bytes) : List (Move Component) := (components path).filterMap Component.move

/-- The pair of the directory of `tag`, if it has one. -/
def directoryOf (dir : Mdir) (tag : Tag) : FsM (Option Pair) :=
  if tag.id ≠ 0x3ff then do
    match ← tryError (lfsDirGet dir ⟨0x700, true⟩ ⟨tyStruct, tag.id, 8⟩) with
    | .ok (_, data) => return some data.toPair
    | .error .noEntry => return none
    | .error e => failWith e
  else
    return some dir.tail

/-- Look a name up in a directory. -/
def lookUp (name : Bytes) : Option Pair → FsM (Option Fetched)
  | none => return none
  | some tail => do
      let lfs ← get
      let fetched ← findName name (tailFuel lfs) tail
      return some fetched

/-- Walk through the components, from the directory of `tag` on. -/
def walkComponents : List Component → Found → Tag → FsM Found
  | [], found, tag => return { found with tag := some tag }
  | component :: rest, found, tag => do
      let found := { found with path := component.path }
      match ← lookUp component.name (← directoryOf found.dir tag) with
      | none => return { found with tag := none }
      | some fetched =>
          let found := { found with dir := fetched.dir, id := fetched.id }
          match fetched.result with
          | .found tag =>
              if tag.type3 ≠ tyDir ∧ component.after ≠ [] then
                failWith .notDir
              else
                walkComponents rest found tag
          | _ => return { found with tag := none }

/-- What a path stands for. -/
def resolve (path : Bytes) : FsM Found :=
  if path = [] then
    failWith .invalid
  else
    match normalise [] (moves path) with
    | none => failWith .invalid
    | some names => do
        let lfs ← get
        walkComponents names { dir := { tail := lfs.root }, id := 0, path := path, tag := none }
          rootTag

/-! ## One component -/

/-- The first component of a path. -/
def frontOf (path : Bytes) : Component :=
  ⟨path.take (lfsStrcspn path slash), path.drop (lfsStrcspn path slash)⟩

theorem lfsStrcspn_slash (rest : Bytes) : lfsStrcspn (slash :: rest) slash = 0 := by
  simp [lfsStrcspn]

theorem lfsStrcspn_of_ne {c : ℕ} (hc : c ≠ slash) (rest : Bytes) :
    lfsStrcspn (c :: rest) slash = lfsStrcspn rest slash + 1 := by
  simp [lfsStrcspn, hc]

theorem components_eq (path : Bytes) :
    components path = frontOf path ::
      match (frontOf path).after with
      | [] => []
      | _ :: rest => components rest := by
  induction path with
  | nil => rfl
  | cons c rest ih =>
      rw [components]
      by_cases hc : c = slash
      · subst hc
        rw [if_pos rfl, frontOf, lfsStrcspn_slash]
        rfl
      · rw [if_neg hc, ih]
        simp only [frontOf, lfsStrcspn_of_ne hc, List.take_succ_cons, List.drop_succ_cons]

/-- The text behind a component is empty or begins with a slash. -/
theorem after_frontOf (path : Bytes) :
    (frontOf path).after = [] ∨ ∃ rest, (frontOf path).after = slash :: rest := by
  induction path with
  | nil => exact Or.inl rfl
  | cons c rest ih =>
      by_cases hc : c = slash
      · subst hc
        rw [frontOf, lfsStrcspn_slash]
        exact Or.inr ⟨rest, rfl⟩
      · simp only [frontOf, lfsStrcspn_of_ne hc, List.drop_succ_cons]
        exact ih

theorem moves_nil : moves [] = [] := rfl

theorem moves_slash (rest : Bytes) : moves (slash :: rest) = moves rest := rfl

/-- The moves of a path are that of its first component, and those of the text behind it. -/
theorem moves_eq (path : Bytes) :
    moves path = (frontOf path).move.toList ++ moves (frontOf path).after := by
  rw [moves, components_eq]
  obtain hnil | ⟨rest, hrest⟩ := after_frontOf path
  · rw [hnil]
    cases hmove : (frontOf path).move with
    | none => simp [hmove, moves_nil]
    | some move => simp [hmove, moves_nil]
  · rw [hrest, moves_slash]
    cases hmove : (frontOf path).move with
    | none => simp [hmove, moves]
    | some move => simp [hmove, moves]

/-- Slashes in front are no moves. -/
theorem moves_strip (path : Bytes) : moves (path.drop (lfsStrspn path slash)) = moves path := by
  induction path with
  | nil => rfl
  | cons c rest ih =>
      by_cases hc : c = slash
      · have hspan : lfsStrspn (c :: rest) slash = lfsStrspn rest slash + 1 := by
          simp [lfsStrspn, hc]
        rw [hspan, List.drop_succ_cons, ih, hc, moves_slash]
      · have hspan : lfsStrspn (c :: rest) slash = 0 := by simp [lfsStrspn, hc]
        rw [hspan, List.drop_zero]

theorem frontOf_name (path : Bytes) :
    (frontOf path).name = path.take (lfsStrcspn path slash) := rfl

theorem frontOf_after (path : Bytes) :
    (frontOf path).after = path.drop (lfsStrcspn path slash) := rfl

theorem path_frontOf (path : Bytes) : (frontOf path).path = path := List.take_append_drop _ _

/-! ## The scan for a `..` -/

/-- As long as the count of the names stays a word, the scan finds the `..` that takes the
first of them back. -/
theorem cancelled_eq (fuel : ℕ) (suffix : Bytes) (depth : ℕ) (hfuel : suffix.length < fuel)
    (hsuffix : suffix = [] ∨ ∃ rest, suffix = slash :: rest)
    (hshort : 2 * depth + suffix.length < 2 ^ 33 + 3) :
    (cancelled fuel suffix (BitVec.ofNat 32 (depth + 1))).map moves =
      closing depth (moves suffix) := by
  induction fuel generalizing suffix depth with
  | zero => omega
  | succ fuel ih =>
      have hstripped := moves_strip suffix
      have hless : suffix = [] ∨
          (suffix.drop (lfsStrspn suffix slash)).length + 1 ≤ suffix.length := by
        apply hsuffix.imp_right
        rintro ⟨rest, rfl⟩
        have hspan : lfsStrspn (slash :: rest) slash = lfsStrspn rest slash + 1 := by
          simp [lfsStrspn]
        rw [hspan, List.drop_succ_cons, List.length_drop, List.length_cons]
        omega
      rw [cancelled]
      generalize hname : suffix.drop (lfsStrspn suffix slash) = name at hstripped hless
      by_cases hzero : lfsStrcspn name slash = 0
      · -- the suffix ends in slashes
        have hnil : name = [] := by
          by_contra hsome
          have hpos := lfsStrcspn_pos (by rw [hname]; exact hsome)
          rw [hname] at hpos
          omega
        subst hnil
        rw [if_pos hzero, ← hstripped, moves_nil, closing]
        rfl
      · have hle := lfsStrcspn_le name slash
        have hlength : (name.drop (lfsStrcspn name slash)).length =
            name.length - lfsStrcspn name slash := List.length_drop
        have hshorter : name.length + 1 ≤ suffix.length := by
          apply hless.resolve_left
          rintro rfl
          subst hname
          exact hzero rfl
        have hnext : ∀ depth', depth' ≤ depth + 1 → (cancelled fuel
            (name.drop (lfsStrcspn name slash)) (BitVec.ofNat 32 (depth' + 1))).map moves =
              closing depth' (moves (frontOf name).after) := by
          intro depth' hdepth
          exact ih _ depth' (by omega) (after_frontOf name) (by omega)
        have hmoves : closing depth (moves suffix) =
            closing depth ((frontOf name).move.toList ++ moves (frontOf name).after) := by
          rw [← hstripped, moves_eq name]
        rw [if_neg hzero, hmoves]
        have hempty : (frontOf name).name ≠ [] := by
          intro hnil
          have hlength := congrArg List.length hnil
          rw [frontOf_name, List.length_take, List.length_nil] at hlength
          omega
        rw [← frontOf_name, ← frontOf_after] at *
        by_cases hdot : (frontOf name).name = [dot]
        · rw [if_pos hdot, Component.move, if_pos (Or.inr hdot)]
          exact hnext depth (by omega)
        · have hmove : ¬((frontOf name).name = [] ∨ (frontOf name).name = [dot]) :=
            not_or.mpr ⟨hempty, hdot⟩
          rw [if_neg hdot, Component.move, if_neg hmove]
          by_cases hdots : (frontOf name).name = [dot, dot]
          · rw [if_pos hdots, if_pos hdots]
            cases depth with
            | zero => rfl
            | succ depth =>
                have htwo : (frontOf name).name.length = 2 := by rw [hdots]; rfl
                rw [frontOf_name, List.length_take] at htwo
                have hback : BitVec.ofNat 32 (depth + 1 + 1) - 1 = BitVec.ofNat 32 (depth + 1) := by
                  bv_omega
                have hword : BitVec.ofNat 32 (depth + 1) ≠ 0 := by
                  intro hzero
                  have hnat := congrArg BitVec.toNat hzero
                  rw [BitVec.toNat_ofNat, Nat.mod_eq_of_lt (by omega)] at hnat
                  exact absurd hnat (Nat.succ_ne_zero depth)
                rw [hback, if_neg hword]
                exact hnext depth (by omega)
          · rw [if_neg hdots, if_neg hdots]
            have hforth : BitVec.ofNat 32 (depth + 1) + 1 = BitVec.ofNat 32 (depth + 1 + 1) := by
              bv_omega
            rw [hforth]
            exact hnext (depth + 1) (le_refl _)

/-! ## The turns of a lookup -/

variable {name rest component : Bytes} {tag : Tag}

theorem lookupTurn_eq (name : Bytes) (tag : Tag) :
    lookupTurn name tag =
      if (frontOf (stripped name tag)).name = [dot] then .skip ((stripped name tag).drop 1)
      else if (frontOf (stripped name tag)).name = [dot, dot] then .stop
      else
        match cancelled ((stripped name tag).length + 1) (frontOf (stripped name tag)).after 1 with
        | some rest => .skip rest
        | none =>
            if stripped name tag = [] ∨ tag.type3 ≠ tyDir then .stop
            else .search (frontOf (stripped name tag)).name (frontOf (stripped name tag)).after :=
  rfl

theorem moves_stripped (name : Bytes) (tag : Tag) : moves (stripped name tag) = moves name := by
  rw [stripped]
  split
  · exact moves_strip name
  · rfl

theorem length_after (path : Bytes) :
    (frontOf path).after.length = path.length - (frontOf path).name.length := by
  have hpath := congrArg List.length (path_frontOf path)
  rw [Component.path, List.length_append] at hpath
  omega

theorem cancelled_front (path : Bytes) (hshort : (frontOf path).after.length < 2 ^ 33 + 3) :
    (cancelled (path.length + 1) (frontOf path).after 1).map moves =
      closing 0 (moves (frontOf path).after) := by
  apply cancelled_eq _ _ 0 ?_ (after_frontOf path) (by omega)
  rw [length_after]
  omega

/-- A component below a directory is not empty. -/
theorem frontOf_stripped_ne_nil (hdir : tag.type3 = tyDir) (hsome : stripped name tag ≠ []) :
    (frontOf (stripped name tag)).name ≠ [] := by
  intro hnil
  have hlength := congrArg List.length hnil
  have hle := lfsStrcspn_le (stripped name tag) slash
  rw [frontOf_name, List.length_take, List.length_nil] at hlength
  rw [stripped, if_pos hdir] at hsome hlength hle
  have hpos := lfsStrcspn_pos hsome
  omega

/-- What a turn below a directory does to the moves that are left. -/
theorem lookupTurn_dir (hdir : tag.type3 = tyDir) (hshort : name.length < 2 ^ 33 + 4) :
    match lookupTurn name tag with
    | .skip rest => normalise [] (moves name) = normalise [] (moves rest)
    | .stop => stripped name tag = [] ∧ moves name = [] ∨
        (frontOf (stripped name tag)).name = [dot, dot] ∧ normalise [] (moves name) = none
    | .search component rest => closing 0 (moves rest) = none ∧
        frontOf (stripped name tag) = ⟨component, rest⟩ ∧
        moves name = .push ⟨component, rest⟩ :: moves rest := by
  have hlength := length_stripped name tag
  have hmoves := (moves_stripped name tag).symm.trans (moves_eq (stripped name tag))
  have hnonempty : stripped name tag ≠ [] → (frontOf (stripped name tag)).name ≠ [] :=
    frontOf_stripped_ne_nil hdir
  rw [lookupTurn_eq]
  generalize stripped name tag = name' at hmoves hlength hnonempty
  have hafter := length_after name'
  by_cases hdot : (frontOf name').name = [dot]
  · have hrest : name'.drop 1 = (frontOf name').after := by
      have hpath := congrArg (List.drop 1) (path_frontOf name')
      rw [Component.path, hdot] at hpath
      exact hpath.symm
    rw [if_pos hdot, hmoves, Component.move, if_pos (Or.inr hdot), hrest]
    rfl
  rw [if_neg hdot]
  by_cases hdots : (frontOf name').name = [dot, dot]
  · have hsome : ¬((frontOf name').name = [] ∨ (frontOf name').name = [dot]) := by
      rw [hdots]
      decide
    rw [if_pos hdots, hmoves, Component.move, if_neg hsome, if_pos hdots]
    exact Or.inr ⟨hdots, rfl⟩
  rw [if_neg hdots]
  by_cases hnil : name' = []
  · subst hnil
    exact Or.inl ⟨rfl, hmoves⟩
  · have hempty := hnonempty hnil
    have hmove : (frontOf name').move = some (.push (frontOf name')) := by
      rw [Component.move, if_neg (not_or.mpr ⟨hempty, hdot⟩), if_neg hdots]
    have hpos : 0 < (frontOf name').name.length := List.length_pos_iff.mpr hempty
    have hscan := cancelled_front name' (by omega)
    rw [hmove] at hmoves
    cases hcancel : cancelled (name'.length + 1) (frontOf name').after 1 with
    | some rest =>
        rw [hcancel] at hscan
        simp only
        rw [hmoves]
        exact normalise_push_of_some hscan.symm
    | none =>
        rw [hcancel] at hscan
        have hsearch : ¬(name' = [] ∨ tag.type3 ≠ tyDir) := by
          rintro (h | h)
          · exact hnil h
          · exact h hdir
        dsimp only
        rw [if_neg hsearch]
        exact ⟨hscan.symm, rfl, hmoves⟩

/-- Behind an entry that is not a directory the lookup ends. -/
theorem lookupTurn_file (hfile : tag.type3 ≠ tyDir)
    (hname : name = [] ∨ ∃ rest, name = slash :: rest) (hclosing : closing 0 (moves name) = none)
    (hshort : name.length < 2 ^ 33 + 3) : lookupTurn name tag = .stop := by
  have hstripped : stripped name tag = name := if_neg hfile
  have hfront : frontOf name = ⟨[], name⟩ := by
    obtain rfl | ⟨rest, rfl⟩ := hname
    · rfl
    · rw [frontOf, lfsStrcspn_slash]
      rfl
  have hscan : (cancelled (name.length + 1) name 1).map moves = closing 0 (moves name) :=
    cancelled_eq _ name 0 (Nat.lt_succ_self _) hname (by omega)
  rw [hclosing, Option.map_eq_none_iff] at hscan
  rw [lookupTurn_eq, hstripped, hfront]
  simp only [hscan]
  rw [if_neg (by simp), if_neg (by simp), if_pos (Or.inr hfile)]

/-! ## The walk -/

/-- What follows when the directory of a component has been searched. -/
def searched (fuel : ℕ) (found : Found) (rest : Bytes) : Option Fetched → FsM Found
  | none => return { found with tag := none }
  | some fetched =>
      let found := { found with dir := fetched.dir, id := fetched.id }
      match fetched.result with
      | .found tag => lfsDirFindGo fuel found rest tag
      | _ => return { found with tag := none }

theorem searchFrom_eq (fuel : ℕ) (found : Found) (component rest : Bytes) (tail : Option Pair) :
    searchFrom fuel found component rest tail =
      lookUp component tail >>= searched fuel found rest := by
  cases tail with
  | none => rfl
  | some tail =>
      rw [searchFrom, lookUp, bind_assoc]
      congr 1
      funext lfs
      rw [bind_assoc]
      rfl

theorem lookupSearch_eq (fuel : ℕ) (found : Found) (component rest : Bytes) (tag : Tag) :
    lookupSearch fuel found component rest tag =
      directoryOf found.dir tag >>= fun tail =>
        lookUp component tail >>= searched fuel found rest := by
  rw [lookupSearch, directoryOf]
  split
  · rw [bind_assoc]
    congr 1
    funext result
    cases result with
    | ok attr => exact searchFrom_eq _ _ _ _ _
    | error e =>
        cases e <;> first | exact searchFrom_eq _ _ _ _ none | rfl
  · exact searchFrom_eq _ _ _ _ _

theorem path_search (hfront : frontOf (stripped name tag) = ⟨component, rest⟩) :
    stripped name tag = (Component.mk component rest).path := by
  rw [← hfront]
  exact (path_frontOf _).symm

/-- An entry that is not a directory is what was looked for, or nothing may follow it. -/
theorem lfsDirFindGo_file (fuel : ℕ) (found : Found) {name : Bytes} {tag : Tag}
    (hfile : tag.type3 ≠ tyDir) (hname : name = [] ∨ ∃ rest, name = slash :: rest)
    (hclosing : closing 0 (moves name) = none) (hshort : name.length < 2 ^ 33 + 3) :
    lfsDirFindGo (fuel + 1) found name tag =
      if name = [] then return { found with tag := some tag } else failWith .notDir := by
  have hstripped : stripped name tag = name := if_neg hfile
  have hfront : (frontOf name).name ≠ [dot, dot] := by
    obtain rfl | ⟨rest, rfl⟩ := hname
    · decide
    · rw [frontOf, lfsStrcspn_slash]
      exact nofun
  rw [lfsDirFindGo_eq, lookupTurn_file hfile hname hclosing hshort]
  simp only
  rw [hstripped, lookupStop, ← frontOf_name, if_neg hfront]

/-- The lookup of the rest of a path below a directory is the walk through its normal form. -/
theorem lfsDirFindGo_dir (fuel : ℕ) (found : Found) {name : Bytes} {tag : Tag}
    (hdir : tag.type3 = tyDir) (hfuel : name.length < fuel) (hshort : name.length < 2 ^ 33 + 4) :
    lfsDirFindGo fuel found name tag =
      match normalise [] (moves name) with
      | none => failWith .invalid
      | some names => walkComponents names found tag := by
  induction fuel generalizing found name tag with
  | zero => omega
  | succ fuel ih =>
      have hturn := lookupTurn_dir hdir hshort
      have hlength : ∀ rest, (lookupTurn name tag = .skip rest ∨
          ∃ component, lookupTurn name tag = .search component rest) → rest.length < name.length :=
        fun rest => length_of_lookupTurn
      rw [lfsDirFindGo_eq]
      cases hkind : lookupTurn name tag with
      | skip rest =>
          rw [hkind] at hturn
          have hless := hlength rest (Or.inl hkind)
          rw [hturn]
          exact ih found hdir (by omega) (by omega)
      | stop =>
          rw [hkind] at hturn
          obtain ⟨hnil, hmoves⟩ | ⟨hdots, hnone⟩ := hturn
          · rw [hmoves, hnil]
            rfl
          · rw [hnone]
            simp only
            rw [lookupStop, ← frontOf_name]
            exact if_pos hdots
      | search component rest =>
          rw [hkind] at hturn
          obtain ⟨hclosing, hfront, hmoves⟩ := hturn
          have hless := hlength rest (Or.inr ⟨component, hkind⟩)
          obtain ⟨names, hrest, hnames⟩ :=
            normalise_push_of_none (Component.mk component rest) hclosing
          rw [hmoves, hnames]
          simp only [walkComponents]
          rw [lookupSearch_eq, path_search hfront]
          congr 1
          funext tail
          congr 1
          funext fetched
          cases fetched with
          | none => rfl
          | some fetched =>
              simp only [searched]
              cases hresult : fetched.result with
              | noEntry => rfl
              | next => rfl
              | found tag' =>
                  simp only
                  by_cases hdir' : tag'.type3 = tyDir
                  · rw [if_neg fun hfile => hfile.1 hdir', ih _ hdir' (by omega) (by omega), hrest]
                  · have hafter : rest = [] ∨ ∃ more, rest = slash :: more := by
                      have hafter := after_frontOf (stripped name tag)
                      rwa [hfront] at hafter
                    obtain ⟨fuel, rfl⟩ : ∃ fuel', fuel = fuel' + 1 := ⟨fuel - 1, by omega⟩
                    rw [lfsDirFindGo_file _ _ hdir' hafter hclosing (by omega)]
                    by_cases hnil : rest = []
                    · subst hnil
                      rw [if_pos rfl, if_neg fun hfile => hfile.2 rfl]
                      cases hrest
                      rfl
                    · rw [if_neg hnil, if_pos ⟨hdir', hnil⟩]

theorem lfsDirFind_of_short {path : Bytes} (hnul : 0 ∉ path) (hshort : path.length < 2 ^ 33 + 4) :
    lfsDirFind path = resolve path := by
  rw [lfsDirFind, resolve]
  by_cases hempty : path = []
  · subst hempty
    rfl
  · have hhead : path.head? ≠ some 0 := fun hhead => hnul (List.mem_of_mem_head? hhead)
    have hgo : ∀ lfs : Lfs, lfsDirFindGo (2 * path.length + 2)
        { dir := { tail := lfs.root }, id := 0, path := path, tag := none } path rootTag = _ :=
      fun lfs => lfsDirFindGo_dir _ _ rfl (by omega) hshort
    rw [if_neg (not_or.mpr ⟨hempty, hhead⟩), if_neg hempty]
    simp only [hgo]
    cases normalise [] (moves path) with
    | none => rfl
    | some names => rfl

/-! ## Where an entry is missing -/

/-- A component is a part of the path, up to its end. -/
theorem path_of_mem_components {path : Bytes} {component : Component}
    (hmem : component ∈ components path) : component.path <:+ path := by
  induction path with
  | nil =>
      cases List.mem_singleton.mp hmem
      exact List.suffix_refl _
  | cons c rest ih =>
      rw [components] at hmem
      split at hmem
      · obtain rfl | hmem := List.mem_cons.mp hmem
        · exact List.suffix_refl _
        · exact (ih hmem).trans (List.suffix_cons c rest)
      · rw [components_eq rest] at hmem ih
        obtain rfl | hmem := List.mem_cons.mp hmem
        · change c :: (frontOf rest).path <:+ c :: rest
          rw [path_frontOf]
        · exact (ih (List.mem_cons_of_mem _ hmem)).trans (List.suffix_cons c rest)

/-- A walk that finds no entry leaves the path at the component that is missing. -/
theorem walkComponents_missing (names : List Component) (found : Found) (tag : Tag) (lfs : Lfs) :
    Outcome (walkComponents names found tag)
      (fun found' _ => found'.tag = none → ∃ component ∈ names, found'.path = component.path)
      (fun _ _ => True) lfs := by
  induction names generalizing found tag lfs with
  | nil => exact nofun
  | cons component rest ih =>
      have hhere : ∃ missing ∈ component :: rest, component.path = missing.path :=
        ⟨component, List.mem_cons_self, rfl⟩
      rw [walkComponents, outcome_bind]
      apply Outcome.intro
      · intro tail lfs' _
        rw [outcome_bind]
        apply Outcome.intro
        · intro fetched lfs' _
          cases fetched with
          | none => exact fun _ => hhere
          | some fetched =>
              simp only
              cases fetched.result with
              | noEntry => exact fun _ => hhere
              | next => exact fun _ => hhere
              | found tag' =>
                  apply outcome_ite
                  · exact fun _ => trivial
                  · intro _
                    apply (ih _ tag' lfs').imp
                    · intro found' _ hmissing hnone
                      obtain ⟨missing, hmem, hpath⟩ := hmissing hnone
                      exact ⟨missing, List.mem_cons_of_mem _ hmem, hpath⟩
                    · exact fun _ _ _ => trivial
        · exact fun _ _ _ => trivial
      · exact fun _ _ _ => trivial

/-- What is left of the moves of a path are names among its components. -/
theorem name_of_normalise {path : Bytes} {names : List Component} {component : Component}
    (hnames : normalise [] (moves path) = some names) (hmem : component ∈ names) :
    component ∈ components path ∧ component.move = some (.push component) := by
  obtain hnil | hpush := mem_of_normalise hnames hmem
  · cases hnil
  · obtain ⟨other, hother, hmove⟩ := List.mem_filterMap.mp hpush
    have hself : other = component := by
      rw [Component.move] at hmove
      split at hmove
      · cases hmove
      · split at hmove
        · cases hmove
        · injection hmove with hmove
          injection hmove
    rw [hself] at hother hmove
    exact ⟨hother, hmove⟩

theorem resolve_missing {path : Bytes} {lfs lfs' : Lfs} {found : Found}
    (hrun : resolve path lfs = .ok found lfs') (hnone : found.tag = none) :
    ∃ component ∈ components path, component.move = some (.push component) ∧
      found.path = component.path ∧ component.path <:+ path := by
  rw [resolve] at hrun
  split at hrun
  · cases hrun
  · cases hnames : normalise [] (moves path) with
    | none =>
        rw [hnames] at hrun
        cases hrun
    | some names =>
        rw [hnames] at hrun
        obtain ⟨component, hmem, hpath⟩ :=
          (walkComponents_missing names _ rootTag lfs).of_ok hrun hnone
        obtain ⟨hcomponent, hname⟩ := name_of_normalise hnames hmem
        exact ⟨component, hcomponent, hname, hpath, path_of_mem_components hcomponent⟩

/-- The lookup of a path is the walk through its normal form; where an entry is missing, the
path that is left starts at the name of it. -/
theorem lfsDirFind_resolves (path : Bytes) (hnul : 0 ∉ path) (hshort : path.length < 2 ^ 33 + 4) :
    lfsDirFind path = resolve path ∧
      ∀ lfs found lfs', lfsDirFind path lfs = .ok found lfs' → found.tag = none →
        ∃ component ∈ components path, component.move = some (.push component) ∧
          found.path = component.path ∧ component.path <:+ path := by
  have hresolve := lfsDirFind_of_short hnul hshort
  refine ⟨hresolve, ?_⟩
  intro lfs found lfs' hrun hnone
  rw [hresolve] at hrun
  exact resolve_missing hrun hnone

/-- `a/../b` is looked up as `b`. -/
theorem lfsDirFind_back : lfsDirFind [97, 47, 46, 46, 47, 98] = resolve [97, 47, 46, 46, 47, 98] ∧
    normalise [] (moves [97, 47, 46, 46, 47, 98]) = some [⟨[98], []⟩] :=
  ⟨(lfsDirFind_resolves _ (by decide) (by simp)).1, by decide⟩

/-! ## A count that comes round -/

/-- `count` names `a`, each behind a slash, and a `..` behind them. -/
def nested : ℕ → Bytes
  | 0 => [slash, dot, dot]
  | count + 1 => slash :: 97 :: nested count

theorem nested_slash (count : ℕ) : ∃ rest, nested count = slash :: rest := by
  cases count with
  | zero => exact ⟨_, rfl⟩
  | succ count => exact ⟨_, rfl⟩

theorem zero_notMem_nested (count : ℕ) : 0 ∉ nested count := by
  induction count with
  | zero => decide
  | succ count ih => simp [nested, slash, ih]

theorem length_nested (count : ℕ) : (nested count).length = 2 * count + 3 := by
  induction count with
  | zero => rfl
  | succ count ih =>
      rw [nested, List.length_cons, List.length_cons, ih]
      omega

theorem frontOf_nested (count : ℕ) : frontOf (97 :: nested count) = ⟨[97], nested count⟩ := by
  obtain ⟨rest, hrest⟩ := nested_slash count
  have hfront : lfsStrcspn (97 :: slash :: rest) slash = 1 := by simp [lfsStrcspn, slash]
  rw [hrest, frontOf, hfront]
  rfl

theorem moves_nested (count : ℕ) :
    moves (nested (count + 1)) = .push ⟨[97], nested count⟩ :: moves (nested count) := by
  rw [nested, moves_slash, moves_eq, frontOf_nested]
  rfl

theorem closing_nested (count depth : ℕ) (hpos : 0 < depth + count) :
    closing depth (moves (nested count)) = none := by
  induction count generalizing depth with
  | zero =>
      cases depth with
      | zero => omega
      | succ depth => rfl
  | succ count ih =>
      rw [moves_nested, closing]
      exact ih (depth + 1) (by omega)

/-- The scan of a release build only sees the count as a word. -/
theorem cancelled_nested (count fuel : ℕ) (depth : BitVec 32) (hfuel : count < fuel)
    (hzero : depth + BitVec.ofNat 32 count - 1 = 0) :
    cancelled fuel (nested count) depth = some [] := by
  induction count generalizing fuel depth with
  | zero =>
      obtain ⟨fuel, rfl⟩ : ∃ more, fuel = more + 1 := ⟨fuel - 1, by omega⟩
      have hzero' : depth - 1 = 0 := by simpa using hzero
      exact if_pos hzero'
  | succ count ih =>
      obtain ⟨fuel, rfl⟩ : ∃ more, fuel = more + 1 := ⟨fuel - 1, by omega⟩
      have hzero' : depth + 1 + BitVec.ofNat 32 count - 1 = 0 := by
        rw [← hzero]
        bv_omega
      have hspan : lfsStrspn (nested (count + 1)) slash = 1 := by
        simp [nested, lfsStrspn, slash]
      have hfront : lfsStrcspn (97 :: nested count) slash = 1 := by
        obtain ⟨rest, hrest⟩ := nested_slash count
        rw [hrest]
        simp [lfsStrcspn, slash]
      have hdrop : (nested (count + 1)).drop 1 = 97 :: nested count := rfl
      have hdot : (97 :: nested count).take 1 ≠ [dot] := by simp [dot]
      have hdots : (97 :: nested count).take 1 ≠ [dot, dot] := by simp
      rw [cancelled, hspan, hdrop, hfront, if_neg Nat.one_ne_zero, if_neg hdot, if_neg hdots]
      exact ih fuel (depth + 1) (by omega) hzero'

/-- The first name is skipped with all that is nested in it, and nothing is left of the path. -/
theorem lfsDirFind_nested {count : ℕ} (hzero : BitVec.ofNat 32 count = 0) (lfs : Lfs) :
    ∃ found, lfsDirFind (97 :: nested count) lfs = .ok found lfs ∧ found.tag = some rootTag := by
  have hstripped : stripped (97 :: nested count) rootTag = 97 :: nested count := by
    simp [stripped, rootTag, lfsStrspn, slash]
  have hcancel : cancelled ((97 :: nested count).length + 1) (nested count) 1 = some [] := by
    apply cancelled_nested
    · rw [List.length_cons, length_nested]
      omega
    · rw [hzero]
      rfl
  have hturn : lookupTurn (97 :: nested count) rootTag = .skip [] := by
    rw [lookupTurn_eq, hstripped, frontOf_nested]
    dsimp only
    rw [if_neg (by decide), if_neg (by decide), hcancel]
  refine ⟨{ dir := { tail := lfs.root }, id := 0, path := 97 :: nested count, tag := some rootTag },
    ?_, rfl⟩
  have hgo : lfsDirFindGo (2 * (97 :: nested count).length + 2)
      { dir := { tail := lfs.root }, id := 0, path := 97 :: nested count, tag := none }
      (97 :: nested count) rootTag =
        return ⟨{ tail := lfs.root }, 0, 97 :: nested count, some rootTag⟩ := by
    rw [lfsDirFindGo_eq, hturn]
    rfl
  rw [lfsDirFind, if_neg (by simp)]
  exact congrFun hgo lfs

/-- The name that is missing in the root of `ringMounted` ends the walk. -/
theorem resolve_nested {count : ℕ} (hpos : 0 < count) :
    ∃ found, resolve (97 :: nested count) ringMounted.quiet = .ok found ringMounted.quiet ∧
      found.tag = none := by
  have hmoves : moves (97 :: nested count) =
      .push ⟨[97], nested count⟩ :: moves (nested count) := by
    rw [moves_eq, frontOf_nested]
    rfl
  obtain ⟨names, -, hnames⟩ := normalise_push_of_none ⟨[97], nested count⟩
    (closing_nested count 0 (by omega))
  rw [← hmoves] at hnames
  have hroot : ringMounted.quiet.root = (0, 1) := by decide +kernel
  have hfetched : fetchmatch ringMounted.disk ringMounted.blockCount ringMounted.gdisk
      (findMatch [97]) (0, 1) = .ok ⟨ringRootDir, 1, .noEntry⟩ := by decide +kernel
  obtain ⟨fuel, hfuel⟩ : ∃ fuel, tailFuel ringMounted.quiet = fuel + 1 := ⟨_, rfl⟩
  have hfind : findName [97] (tailFuel ringMounted.quiet) (0, 1) ringMounted.quiet =
      .ok ⟨ringRootDir, 1, .noEntry⟩ ringMounted.quiet := by
    rw [hfuel, findName, bind_of_ok (lfsDirFetchmatch_quiet hfetched)]
    rfl
  have hlook : lookUp [97] (some (0, 1)) ringMounted.quiet =
      .ok (some ⟨ringRootDir, 1, .noEntry⟩) ringMounted.quiet := by
    have hget : (get : FsM Lfs) ringMounted.quiet = .ok ringMounted.quiet ringMounted.quiet := rfl
    rw [lookUp, bind_of_ok hget, bind_of_ok hfind]
    rfl
  refine ⟨⟨ringRootDir, 1, 97 :: nested count, none⟩, ?_, rfl⟩
  have hget : (get : FsM Lfs) ringMounted.quiet = .ok ringMounted.quiet ringMounted.quiet := rfl
  have hdirectory : directoryOf { tail := ringMounted.quiet.root } rootTag ringMounted.quiet =
      .ok (some (0, 1)) ringMounted.quiet := by
    rw [hroot]
    rfl
  rw [resolve, if_neg (by simp), hnames]
  dsimp only
  rw [bind_of_ok hget, walkComponents]
  dsimp only
  rw [bind_of_ok hdirectory, bind_of_ok hlook]
  rfl

/-- In a release build a name with a multiple of 2 ^ 32 names nested in it is taken to be
cancelled by the `..` that cancels the last of them. -/
theorem lfsDirFind_wraps : ¬∀ path : Bytes, 0 ∉ path → lfsDirFind path = resolve path := by
  intro hclaim
  have hword : BitVec.ofNat 32 (2 ^ 32) = 0 := by decide
  have hnul : 0 ∉ 97 :: nested (2 ^ 32) := by
    rw [List.mem_cons, not_or]
    exact ⟨by decide, zero_notMem_nested _⟩
  obtain ⟨found, hfound, htag⟩ := lfsDirFind_nested hword ringMounted.quiet
  obtain ⟨missing, hmissing, hnone⟩ := resolve_nested (Nat.two_pow_pos 32)
  rw [hclaim _ hnul, hmissing] at hfound
  injection hfound with hfound
  rw [← hfound, hnone] at htag
  cases htag

end Littlefs
