import Littlefs.TailCycles

/-!
# Looking paths up

A lookup enters one directory for each component of the path and follows its
hard tails until the name is met or the directory ends.  Nothing checks these
tails for cycles: the lookup ends exactly where none of the directories it
searches goes round without meeting the name.
-/

namespace Littlefs

open Program Cycles

/-! ## The search of one directory -/

/-- The pair where a search for `name` goes on behind `tail`. -/
def searchNext (lfs : Lfs) (name : Bytes) (tail : Pair) : Option Pair :=
  match fetchmatch lfs.disk lfs.blockCount lfs.gdisk (findMatch name) tail with
  | .error _ => none
  | .ok fetched =>
      if fetched.result = .next ∧ fetched.dir.split = true then some fetched.dir.tail else none

/-- The pairs that a search for `name` from `tail` passes. -/
def searchAt (lfs : Lfs) (name : Bytes) (tail : Pair) : ℕ → Option Pair :=
  follow (searchNext lfs name) tail

/-- The hard tails from `tail` come back to a pair before `name` is met. -/
def Circles (lfs : Lfs) (name : Bytes) (tail : Pair) : Prop := Returns (searchNext lfs name) tail

variable {lfs : Lfs} {name : Bytes}

theorem searchNext_eq_some {tail tail' : Pair} :
    searchNext lfs name tail = some tail' ↔ ∃ fetched,
      fetchmatch lfs.disk lfs.blockCount lfs.gdisk (findMatch name) tail = .ok fetched ∧
        fetched.result = .next ∧ fetched.dir.split = true ∧ fetched.dir.tail = tail' := by
  rw [searchNext]
  cases fetchmatch lfs.disk lfs.blockCount lfs.gdisk (findMatch name) tail with
  | error e => simp
  | ok fetched =>
      dsimp only
      split_ifs with hnext
      · simp [hnext]
      · simp only [Except.ok.injEq, exists_eq_left', false_iff]
        exact fun h => hnext ⟨h.1, h.2.1⟩

/-- A search that does not go round ends before it has passed every block. -/
theorem searchAt_stops (hcount : lfs.blockCount ≠ 0) {tail : Pair}
    (hcircles : ¬Circles lfs name tail) : searchAt lfs name tail (lfs.blockCount + 1) = none := by
  by_contra hlong
  have hnext : ∀ tail tail', searchNext lfs name tail = some tail' →
      outOfRange lfs.blockCount tail = false ∧
        ∃ found, locate lfs.disk tail = some found ∧ (mdirOf lfs.disk found).tail = tail' := by
    intro tail tail' hnext
    obtain ⟨fetched, hfetched, -, -, htail⟩ := searchNext_eq_some.mp hnext
    obtain ⟨hrange, found, hlocate, hdir⟩ := fetchmatch_ok hfetched
    exact ⟨hrange, found, hlocate, by rw [← htail, hdir]⟩
  obtain ⟨k, l, value, hlt, -, hk, hl⟩ := exists_tail_return hcount hnext hlong
  exact hcircles ⟨k, l, value, hlt, hk, hl⟩

theorem readBlock_quiet {block : Block} (hdevice : OnDevice lfs block) :
    readBlock block lfs.quiet = .ok (lfs.disk block) lfs.quiet := by
  have hget : (get : FsM Lfs) lfs.quiet = .ok lfs.quiet lfs.quiet := rfl
  have hrange : ¬(lfs.quiet.blockCount ≠ 0 ∧ lfs.quiet.blockCount ≤ block) := hdevice
  rw [readBlock, bind_of_ok hget]
  dsimp only
  rw [if_neg hrange]
  rfl

theorem lfsDirFetchmatch_quiet {cb : Attr → Option Ordering} {pair : Pair} {fetched : Fetched}
    (hfetched : fetchmatch lfs.disk lfs.blockCount lfs.gdisk cb pair = .ok fetched) :
    lfsDirFetchmatch cb pair lfs.quiet = .ok fetched lfs.quiet := by
  obtain ⟨hrange, -⟩ := fetchmatch_ok hfetched
  have hrange' : outOfRange lfs.quiet.blockCount pair = false := hrange
  have hfetched' : fetchmatch lfs.quiet.disk lfs.quiet.blockCount lfs.quiet.gdisk cb pair =
      .ok fetched := hfetched
  have hdevice : OnDevice lfs pair.1 := by
    rintro ⟨hcount, hle⟩
    simp [outOfRange, hcount, hle] at hrange
  have hread := readBlock_quiet hdevice
  have hget : (get : FsM Lfs) lfs.quiet = .ok lfs.quiet lfs.quiet := rfl
  rw [lfsDirFetchmatch, bind_of_ok hget, hrange']
  simp only [Bool.false_eq_true, if_false]
  rw [bind_of_ok hread, hfetched']
  rfl

/-- One step of a search that goes on. -/
theorem findName_succ {tail tail' : Pair} (hnext : searchNext lfs name tail = some tail')
    (fuel : ℕ) :
    findName name (fuel + 1) tail lfs.quiet = findName name fuel tail' lfs.quiet := by
  obtain ⟨fetched, hfetched, hresult, hsplit, htail⟩ := searchNext_eq_some.mp hnext
  rw [findName, bind_of_ok (lfsDirFetchmatch_quiet hfetched), hresult]
  dsimp only
  rw [if_pos hsplit, htail]

/-- A search that goes round never ends on a device that answers. -/
theorem findName_circles {tail : Pair} (hcircles : Circles lfs name tail) (fuel : ℕ) :
    findName name fuel tail lfs.quiet = .error .outOfFuel lfs.quiet := by
  have hruns : ∀ fuel k tail', searchAt lfs name tail k = some tail' →
      findName name fuel tail' lfs.quiet = .error .outOfFuel lfs.quiet := by
    intro fuel
    induction fuel with
    | zero => exact fun _ _ _ => rfl
    | succ fuel ih =>
        intro k tail' hk
        obtain ⟨tail'', hnext⟩ := Option.ne_none_iff_exists'.mp (hcircles.follow_ne_none (k + 1))
        have hstep : searchNext lfs name tail' = some tail'' := by
          rwa [follow, show follow _ _ k = some tail' from hk] at hnext
        rw [findName_succ hstep]
        exact ih (k + 1) tail'' hnext
  exact hruns fuel 0 tail rfl

/-- A search passes the pairs where it goes on, one after the other. -/
theorem findName_passes {tail tail' : Pair} {k : ℕ}
    (hk : searchAt lfs name tail k = some tail') (fuel : ℕ) :
    findName name (fuel + k) tail lfs.quiet = findName name fuel tail' lfs.quiet := by
  induction k generalizing tail' fuel with
  | zero =>
      cases hk
      rfl
  | succ k ih =>
      obtain ⟨before, hbefore, hnext⟩ := Option.bind_eq_some_iff.mp hk
      rw [show fuel + (k + 1) = fuel + 1 + k by omega, ih hbefore, findName_succ hnext]

/-- A search that finds the name has gone round nowhere. -/
theorem length_searchAt (hcount : lfs.blockCount ≠ 0) {tail tail' : Pair} {k : ℕ}
    (hk : searchAt lfs name tail k = some tail') (hend : searchNext lfs name tail' = none) :
    k < lfs.blockCount + 1 := by
  have hnone : searchAt lfs name tail (k + 1) = none := by
    rw [searchAt, follow, show follow _ _ k = some tail' from hk]
    exact hend
  by_contra hlong
  have hcircles : ¬Circles lfs name tail := fun h => h.follow_ne_none (k + 1) hnone
  have hstops := follow_none_of_le (show lfs.blockCount + 1 ≤ k by omega)
    (searchAt_stops hcount hcircles)
  rw [show follow _ _ k = some tail' from hk] at hstops
  cases hstops

theorem findName_found (hcount : lfs.blockCount ≠ 0) {tail tail' : Pair} {k : ℕ}
    {fetched : Fetched} {tag : Tag} (hk : searchAt lfs name tail k = some tail')
    (hfetched : fetchmatch lfs.disk lfs.blockCount lfs.gdisk (findMatch name) tail' = .ok fetched)
    (hfound : fetched.result = .found tag) :
    findName name (tailFuel lfs.quiet) tail lfs.quiet = .ok fetched lfs.quiet := by
  have hend : searchNext lfs name tail' = none := by
    rw [searchNext, hfetched]
    simp [hfound]
  have hshort := length_searchAt hcount hk hend
  obtain ⟨fuel, hfuel⟩ : ∃ fuel, tailFuel lfs.quiet = fuel + 1 + k := by
    refine ⟨tailFuel lfs.quiet - k - 1, ?_⟩
    have hlarge : lfs.blockCount + 1 ≤ tailFuel lfs.quiet := by
      rw [tailFuel, walkFuel, show lfs.quiet.blockCount = lfs.blockCount from rfl]
      nlinarith
    omega
  rw [hfuel, findName_passes hk, findName, bind_of_ok (lfsDirFetchmatch_quiet hfetched), hfound]
  rfl

/-- What a search finds, if it has the fuel to reach its end. -/
theorem outcome_findName {tail tail' : Pair} {fuel k : ℕ} {middle : Lfs}
    (hreads : Reads lfs middle) (hk : searchAt lfs name tail k = some tail')
    (hstops : searchAt lfs name tail (k + fuel) = none) :
    Outcome (findName name fuel tail')
      (fun fetched lfs' => Reads lfs lfs' ∧ ∃ k tail', searchAt lfs name tail k = some tail' ∧
        fetchmatch lfs.disk lfs.blockCount lfs.gdisk (findMatch name) tail' = .ok fetched)
      (fun failure _ => failure ≠ .outOfFuel) middle := by
  induction fuel generalizing k tail' middle with
  | zero =>
      rw [add_zero, hk] at hstops
      cases hstops
  | succ fuel ih =>
      rw [findName, outcome_bind]
      apply (outcome_lfsDirFetchmatch _ tail' middle).imp
      · rintro fetched lfs' ⟨hreads', hfetched⟩
        rw [fetchmatch_of_reads hreads] at hfetched
        have hfound : Reads lfs lfs' ∧ ∃ k tail', searchAt lfs name tail k = some tail' ∧
            fetchmatch lfs.disk lfs.blockCount lfs.gdisk (findMatch name) tail' = .ok fetched :=
          ⟨hreads.trans hreads', k, tail', hk, hfetched⟩
        cases hresult : fetched.result with
        | found tag => exact hfound
        | noEntry => exact hfound
        | next =>
            apply outcome_ite
            · intro hsplit
              have hnext : searchNext lfs name tail' = some fetched.dir.tail :=
                searchNext_eq_some.mpr ⟨fetched, hfetched, hresult, hsplit, rfl⟩
              have hk' : searchAt lfs name tail (k + 1) = some fetched.dir.tail := by
                rw [searchAt, follow, show follow _ _ k = some tail' from hk]
                exact hnext
              apply ih (hreads.trans hreads') hk'
              rwa [add_assoc, add_comm 1]
            · exact fun _ => hfound
      · rintro failure lfs' ⟨_, hfailure⟩ h
        subst h
        simp at hfailure

/-! ## One component of a path -/

/-- What a turn of `lfs_dir_find` does with the rest of the path. -/
inductive LookupTurn
  | skip (rest : Bytes)
  | stop
  | search (component rest : Bytes)
  deriving DecidableEq, Repr

/-- The slashes in front of a component are skipped below a directory. -/
def stripped (name : Bytes) (tag : Tag) : Bytes :=
  if tag.type3 = tyDir then name.drop (lfsStrspn name slash) else name

def lookupTurn (name : Bytes) (tag : Tag) : LookupTurn :=
  let name := stripped name tag
  let namelen := lfsStrcspn name slash
  if name.take namelen = [dot] then .skip (name.drop 1)
  else if name.take namelen = [dot, dot] then .stop
  else
    match cancelled (name.length + 1) (name.drop namelen) 1 with
    | some rest => .skip rest
    | none =>
        if name = [] ∨ tag.type3 ≠ tyDir then .stop
        else .search (name.take namelen) (name.drop namelen)

theorem lfsStrcspn_le (name : Bytes) (c : ℕ) : lfsStrcspn name c ≤ name.length :=
  (List.takeWhile_sublist _).length_le

theorem length_cancelled {fuel : ℕ} {suffix rest : Bytes} {depth : BitVec 32}
    (hcancelled : cancelled fuel suffix depth = some rest) : rest.length < suffix.length := by
  induction fuel generalizing suffix depth with
  | zero => cases hcancelled
  | succ fuel ih =>
      rw [cancelled] at hcancelled
      generalize hstrip : suffix.drop (lfsStrspn suffix slash) = name at hcancelled
      have hname : name.length ≤ suffix.length := by
        rw [← hstrip, List.length_drop]
        omega
      have hle := lfsStrcspn_le name slash
      have hdrop : (name.drop (lfsStrcspn name slash)).length =
          name.length - lfsStrcspn name slash := List.length_drop
      split_ifs at hcancelled with hzero
      · have := ih hcancelled
        omega
      · cases hcancelled
        omega
      · have := ih hcancelled
        omega
      · have := ih hcancelled
        omega

/-- A component that is looked up is not empty. -/
theorem lfsStrcspn_pos {name : Bytes} (hname : name.drop (lfsStrspn name slash) ≠ []) :
    0 < lfsStrcspn (name.drop (lfsStrspn name slash)) slash := by
  induction name with
  | nil => exact absurd rfl hname
  | cons c rest ih =>
      by_cases hslash : c = slash
      · have hspan : lfsStrspn (c :: rest) slash = lfsStrspn rest slash + 1 := by
          simp [lfsStrspn, hslash]
        rw [hspan, List.drop_succ_cons] at hname ⊢
        exact ih hname
      · simp [lfsStrspn, lfsStrcspn, hslash]

theorem length_stripped (name : Bytes) (tag : Tag) : (stripped name tag).length ≤ name.length := by
  rw [stripped]
  split_ifs
  · rw [List.length_drop]
    omega
  · exact le_rfl

/-- Every turn uses up a part of the path. -/
theorem length_of_lookupTurn {name : Bytes} {tag : Tag} {rest : Bytes}
    (hturn : lookupTurn name tag = .skip rest ∨
      ∃ component, lookupTurn name tag = .search component rest) : rest.length < name.length := by
  have hstripped := length_stripped name tag
  have hle := lfsStrcspn_le (stripped name tag) slash
  rw [lookupTurn] at hturn
  generalize hname : stripped name tag = name' at hturn hstripped hle
  by_cases hdot : name'.take (lfsStrcspn name' slash) = [dot]
  · rw [if_pos hdot] at hturn
    have hrest : name'.drop 1 = rest := by simpa using hturn
    have hlength := congrArg List.length hdot
    rw [List.length_take, List.length_singleton] at hlength
    rw [← hrest, List.length_drop]
    omega
  rw [if_neg hdot] at hturn
  by_cases hdots : name'.take (lfsStrcspn name' slash) = [dot, dot]
  · rw [if_pos hdots] at hturn
    simp at hturn
  rw [if_neg hdots] at hturn
  cases hcancel : cancelled (name'.length + 1) (name'.drop (lfsStrcspn name' slash)) 1 with
  | some rest' =>
      rw [hcancel] at hturn
      have hrest : rest' = rest := by simpa using hturn
      have hshort := length_cancelled hcancel
      rw [List.length_drop, hrest] at hshort
      omega
  | none =>
      rw [hcancel] at hturn
      dsimp only at hturn
      by_cases hstop : name' = [] ∨ tag.type3 ≠ tyDir
      · rw [if_pos hstop] at hturn
        simp at hturn
      · rw [if_neg hstop] at hturn
        simp only [not_or, not_not] at hstop
        have hrest : name'.drop (lfsStrcspn name' slash) = rest := by simpa using hturn
        have hpos : 0 < lfsStrcspn name' slash := by
          rw [← hname, stripped, if_pos hstop.2] at hstop ⊢
          exact lfsStrcspn_pos hstop.1
        rw [← hrest, List.length_drop]
        omega

/-! ## The turns of a lookup -/

/-- Where the search for the component below `tag` starts. -/
def searchStart (lfs : Lfs) (dir : Mdir) (tag : Tag) : Option Pair :=
  if tag.id ≠ 0x3ff then
    (lookupAttr lfs dir ⟨0x700, true⟩ ⟨tyStruct, tag.id, 8⟩).map fun attr => attr.2.toPair
  else
    some dir.tail

/-- The end of a lookup before another search. -/
def lookupStop (found : Found) (name : Bytes) (tag : Tag) : FsM Found :=
  if name.take (lfsStrcspn name slash) = [dot, dot] then failWith .invalid
  else if name = [] then return { found with tag := some tag }
  else failWith .notDir

/-- The search for `component` from `tail`, and what follows if it is found. -/
def searchFrom (fuel : ℕ) (found : Found) (component rest : Bytes) : Option Pair → FsM Found
  | none => return { found with tag := none }
  | some tail => do
      let lfs ← get
      let fetched ← findName component (tailFuel lfs) tail
      let found := { found with dir := fetched.dir, id := fetched.id }
      match fetched.result with
      | .found tag => lfsDirFindGo fuel found rest tag
      | _ => return { found with tag := none }

/-- The search for `component` in the directory of `tag`. -/
def lookupSearch (fuel : ℕ) (found : Found) (component rest : Bytes) (tag : Tag) : FsM Found :=
  if tag.id ≠ 0x3ff then do
    match ← tryError (lfsDirGet found.dir ⟨0x700, true⟩ ⟨tyStruct, tag.id, 8⟩) with
    | .ok (_, data) => searchFrom fuel found component rest (some data.toPair)
    | .error .noEntry => searchFrom fuel found component rest none
    | .error e => failWith e
  else searchFrom fuel found component rest (some found.dir.tail)

theorem lfsDirFindGo_eq (fuel : ℕ) (found : Found) (name : Bytes) (tag : Tag) :
    lfsDirFindGo (fuel + 1) found name tag =
      match lookupTurn name tag with
      | .skip rest => lfsDirFindGo fuel found rest tag
      | .stop => lookupStop found (stripped name tag) tag
      | .search component rest =>
          lookupSearch fuel { found with path := stripped name tag } component rest tag := by
  rw [lfsDirFindGo, lookupTurn, stripped]
  generalize (if tag.type3 = tyDir then name.drop (lfsStrspn name slash) else name) = name
  dsimp only
  by_cases hdot : name.take (lfsStrcspn name slash) = [dot]
  · rw [if_pos hdot, if_pos hdot]
  rw [if_neg hdot, if_neg hdot]
  by_cases hdots : name.take (lfsStrcspn name slash) = [dot, dot]
  · rw [if_pos hdots, if_pos hdots, lookupStop, if_pos hdots]
  rw [if_neg hdots, if_neg hdots]
  cases cancelled (name.length + 1) (name.drop (lfsStrcspn name slash)) 1 with
  | some rest => rfl
  | none =>
      dsimp only
      by_cases hname : name = []
      · have hstop : name = [] ∨ tag.type3 ≠ tyDir := .inl hname
        rw [if_pos hname, if_pos hstop, lookupStop, if_neg hdots, if_pos hname]
      rw [if_neg hname]
      by_cases hdir : tag.type3 = tyDir
      · have hstop : ¬(name = [] ∨ tag.type3 ≠ tyDir) := by simp [hname, hdir]
        have hdir' : ¬tag.type3 ≠ tyDir := by simp [hdir]
        rw [if_neg hdir', if_neg hstop]
        dsimp only [lookupSearch]
        by_cases hid : tag.id ≠ 0x3ff
        · rw [if_pos hid, if_pos hid]
          rfl
        · rw [if_neg hid, if_neg hid]
          rfl
      · have hstop : name = [] ∨ tag.type3 ≠ tyDir := .inr hdir
        rw [if_pos hdir, if_pos hstop, lookupStop, if_neg hdots, if_neg hname]
        rfl

/-! ## The directories of a lookup -/

/-- The states of the lookup of `path`: the pair and the tag of the last entry that
was found, and the rest of the path. -/
inductive At (lfs : Lfs) (path : Bytes) : Mdir → Bytes → Tag → Prop
  | start (hempty : path ≠ []) (hhead : path.head? ≠ some 0) :
      At lfs path { tail := lfs.root } path rootTag
  | skip {dir : Mdir} {name rest : Bytes} {tag : Tag} (hat : At lfs path dir name tag)
      (hturn : lookupTurn name tag = .skip rest) : At lfs path dir rest tag
  | enter {dir : Mdir} {name component rest : Bytes} {tag tag' : Tag} {tail tail' : Pair} {k : ℕ}
      {fetched : Fetched} (hat : At lfs path dir name tag)
      (hturn : lookupTurn name tag = .search component rest)
      (hstart : searchStart lfs dir tag = some tail)
      (hpasses : searchAt lfs component tail k = some tail')
      (hfetched : fetchmatch lfs.disk lfs.blockCount lfs.gdisk (findMatch component) tail' =
        .ok fetched) (hfound : fetched.result = .found tag') : At lfs path fetched.dir rest tag'

/-- The lookup of `path` searches the directory at `tail` for `component`. -/
def Searches (lfs : Lfs) (path component : Bytes) (tail : Pair) : Prop :=
  ∃ dir name tag rest, At lfs path dir name tag ∧
    lookupTurn name tag = .search component rest ∧ searchStart lfs dir tag = some tail

variable {path : Bytes}

/-- An entry that was found can be read. -/
theorem At.onDevice {dir : Mdir} {name : Bytes} {tag : Tag} (hat : At lfs path dir name tag)
    (htag : tag.id ≠ 0x3ff) : OnDevice lfs dir.pair.1 := by
  induction hat with
  | start => exact absurd rfl htag
  | skip _ _ ih => exact ih htag
  | enter _ _ _ _ hfetched => exact onDevice_of_fetchmatch hfetched

theorem outcome_lookupStop (found : Found) (name : Bytes) (tag : Tag) (lfs : Lfs) :
    Ends (lookupStop found name tag) lfs := by
  apply outcome_ite
  · exact fun _ h => by cases h
  · intro _
    apply outcome_ite
    · exact fun _ => trivial
    · exact fun _ h => by cases h

/-- A lookup ends if none of its searches goes round. -/
theorem ends_lfsDirFindGo (hcount : lfs.blockCount ≠ 0)
    (hpath : ∀ component tail, Searches lfs path component tail → ¬Circles lfs component tail)
    (fuel : ℕ) (found : Found) {name : Bytes} {tag : Tag} {middle : Lfs}
    (hat : At lfs path found.dir name tag) (hfuel : name.length < fuel)
    (hreads : Reads lfs middle) : Ends (lfsDirFindGo fuel found name tag) middle := by
  induction fuel generalizing found name tag middle with
  | zero => omega
  | succ fuel ih =>
      rw [lfsDirFindGo_eq]
      cases hturn : lookupTurn name tag with
      | skip rest =>
          have hshort := length_of_lookupTurn (.inl hturn)
          exact ih found (hat.skip hturn) (by omega) hreads
      | stop => exact outcome_lookupStop _ _ _ _
      | search component rest =>
          have hshort := length_of_lookupTurn (.inr ⟨component, hturn⟩)
          have hsearch : ∀ (found' : Found) (tail : Pair) (middle : Lfs),
              searchStart lfs found.dir tag = some tail → Reads lfs middle →
                Ends (searchFrom fuel found' component rest (some tail)) middle := by
            intro found' tail middle hstart hreads
            have hcircles := hpath component tail ⟨_, _, _, _, hat, hturn, hstart⟩
            have hstops : searchAt lfs component tail (0 + tailFuel middle) = none := by
              apply follow_none_of_le _ (searchAt_stops hcount hcircles)
              rw [tailFuel, walkFuel, hreads.eq, zero_add]
              nlinarith
            rw [searchFrom, Ends, outcome_bind, outcome_get, outcome_bind]
            apply (outcome_findName hreads rfl hstops).imp
            · rintro fetched lfs' ⟨hreads', k, tail', hpasses, hfetched⟩
              cases hresult : fetched.result with
              | found tag' =>
                  have hat' := At.enter hat hturn hstart hpasses hfetched hresult
                  exact ih ⟨fetched.dir, fetched.id, found'.path, found'.tag⟩ hat' (by omega)
                    hreads'
              | noEntry => trivial
              | next => trivial
            · exact fun _ _ h => h
          dsimp only
          rw [lookupSearch]
          apply outcome_ite
          · intro hid
            rw [outcome_bind]
            apply (outcome_lfsDirGet found.dir _ _ middle).tryError
            · rintro attr lfs' ⟨hattr, hreads'⟩
              apply hsearch _ _ lfs' _ (hreads.trans hreads')
              rw [searchStart, if_pos hid]
              rw [hreads.eq] at hattr
              change (lookupAttr lfs found.dir _ _) = _ at hattr
              rw [hattr, Option.map_some]
            · intro e lfs' _
              cases e <;> first | exact trivial | exact fun h => by cases h
            · rintro fault lfs' hfault ⟨_, hfailure⟩ h
              subst h
              simp [ReadFails] at hfailure
          · intro hid
            apply hsearch _ _ middle _ hreads
            rw [searchStart, if_neg hid]

theorem ends_lfsDirFind (hcount : lfs.blockCount ≠ 0)
    (hpath : ∀ component tail, Searches lfs path component tail → ¬Circles lfs component tail) :
    Ends (lfsDirFind path) lfs.quiet := by
  apply outcome_ite
  · exact fun _ h => by cases h
  · intro hvalid
    simp only [not_or] at hvalid
    rw [outcome_bind, outcome_get]
    exact ends_lfsDirFindGo hcount hpath _ _ (.start hvalid.1 hvalid.2) (by omega)
      ⟨rfl, List.nil_suffix⟩

theorem lfsDirGet_quiet {dir : Mdir} {gmask : Mask} {gtag : Tag} {attr : Attr}
    (hdevice : OnDevice lfs dir.pair.1) (hattr : lookupAttr lfs dir gmask gtag = some attr) :
    lfsDirGet dir gmask gtag lfs.quiet = .ok attr lfs.quiet := by
  have hlog : readLog dir lfs.quiet = .ok (readableLog lfs dir) lfs.quiet := by
    rw [readLog, readableLog]
    split_ifs
    · rfl
    · rw [bind_of_ok (readBlock_quiet hdevice)]
      rfl
  have hget : (get : FsM Lfs) lfs.quiet = .ok lfs.quiet lfs.quiet := rfl
  have hslice : getslice lfs.quiet.gdisk dir (readableLog lfs dir) gmask gtag = some attr := hattr
  rw [lfsDirGet, bind_of_ok hlog, bind_of_ok hget, hslice]
  rfl

/-- On a device that answers, the search for a component starts in the directory of the tag. -/
theorem lookupSearch_quiet {found : Found} {component rest : Bytes} {tag : Tag} {tail : Pair}
    (hdevice : tag.id ≠ 0x3ff → OnDevice lfs found.dir.pair.1)
    (hstart : searchStart lfs found.dir tag = some tail) (fuel : ℕ) :
    lookupSearch fuel found component rest tag lfs.quiet =
      searchFrom fuel found component rest (some tail) lfs.quiet := by
  rw [searchStart] at hstart
  rw [lookupSearch]
  by_cases hid : tag.id ≠ 0x3ff
  · rw [if_pos hid] at hstart ⊢
    obtain ⟨attr, hattr, rfl⟩ := Option.map_eq_some_iff.mp hstart
    have htry : tryError (lfsDirGet found.dir ⟨0x700, true⟩ ⟨tyStruct, tag.id, 8⟩) lfs.quiet =
        .ok (.ok attr) lfs.quiet := attempt_eq_ok_ok.mpr (lfsDirGet_quiet (hdevice hid) hattr)
    rw [bind_of_ok htry]
  · rw [if_neg hid] at hstart ⊢
    cases hstart
    rfl

theorem At.search {found : Found} {name component rest : Bytes} {tag : Tag} {tail : Pair}
    (hat : At lfs path found.dir name tag) (hturn : lookupTurn name tag = .search component rest)
    (hstart : searchStart lfs found.dir tag = some tail) (fuel : ℕ) :
    lfsDirFindGo (fuel + 1) found name tag lfs.quiet =
      searchFrom fuel { found with path := stripped name tag } component rest (some tail)
        lfs.quiet := by
  have hdevice : tag.id ≠ 0x3ff →
      OnDevice lfs ({ found with path := stripped name tag } : Found).dir.pair.1 := hat.onDevice
  rw [lfsDirFindGo_eq, hturn]
  exact lookupSearch_quiet hdevice hstart fuel

/-- On a device that answers, the lookup gets to all its states. -/
theorem At.runs (hcount : lfs.blockCount ≠ 0) {dir : Mdir} {name : Bytes} {tag : Tag}
    (hat : At lfs path dir name tag) :
    ∃ fuel found, found.dir = dir ∧ name.length < fuel ∧
      lfsDirFind path lfs.quiet = lfsDirFindGo fuel found name tag lfs.quiet := by
  induction hat with
  | start hempty hhead =>
      refine ⟨2 * path.length + 2, ⟨{ tail := lfs.root }, 0, path, none⟩, rfl, by omega, ?_⟩
      rw [lfsDirFind, if_neg (by simp [hempty, hhead])]
      rfl
  | @skip dir name rest tag hat hturn ih =>
      obtain ⟨fuel, found, hdir, hfuel, hrun⟩ := ih
      have hshort := length_of_lookupTurn (.inl hturn)
      obtain ⟨fuel, rfl⟩ : ∃ fuel', fuel = fuel' + 1 := ⟨fuel - 1, by omega⟩
      refine ⟨fuel, found, hdir, by omega, ?_⟩
      rw [hrun, lfsDirFindGo_eq, hturn]
  | @enter dir name component rest tag tag' tail tail' k fetched hat hturn hstart hpasses hfetched
      hfound ih =>
      obtain ⟨fuel, found, rfl, hfuel, hrun⟩ := ih
      have hshort := length_of_lookupTurn (.inr ⟨component, hturn⟩)
      obtain ⟨fuel, rfl⟩ : ∃ fuel', fuel = fuel' + 1 := ⟨fuel - 1, by omega⟩
      refine ⟨fuel, ⟨fetched.dir, fetched.id, stripped name tag, found.tag⟩, rfl, by omega, ?_⟩
      have hget : (get : FsM Lfs) lfs.quiet = .ok lfs.quiet lfs.quiet := rfl
      rw [hrun, hat.search hturn hstart, searchFrom, bind_of_ok hget,
        bind_of_ok (findName_found hcount hpasses hfetched hfound)]
      dsimp only
      rw [hfound]

/-- A search that goes round keeps the lookup from ending. -/
theorem lfsDirFind_circles (hcount : lfs.blockCount ≠ 0) {component : Bytes} {tail : Pair}
    (hsearches : Searches lfs path component tail) (hcircles : Circles lfs component tail) :
    lfsDirFind path lfs.quiet = .error .outOfFuel lfs.quiet := by
  obtain ⟨dir, name, tag, rest, hat, hturn, hstart⟩ := hsearches
  obtain ⟨fuel, found, rfl, hfuel, hrun⟩ := hat.runs hcount
  obtain ⟨fuel, rfl⟩ : ∃ fuel', fuel = fuel' + 1 := ⟨fuel - 1, by omega⟩
  have hget : (get : FsM Lfs) lfs.quiet = .ok lfs.quiet lfs.quiet := rfl
  rw [hrun, hat.search hturn hstart, searchFrom, bind_of_ok hget]
  exact bind_eq_error.mpr (.inl (findName_circles hcircles _))

theorem blockCount_of_lfsMount {cfg : Config} {seed : ℕ} {base lfs : Lfs}
    (hmount : lfsMount cfg seed base = .ok () lfs) : lfs.blockCount ≠ 0 := by
  have hrun : Outcome (lfsMount cfg seed) (fun _ lfs' => lfs'.blockCount ≠ 0) (fun _ _ => True)
      base := by
    rw [lfsMount, outcome_bind, outcome_modify, outcome_bind]
    apply Outcome.intro
    · intro _ middle _
      rw [outcome_bind, outcome_get]
      dsimp only
      apply outcome_ite
      · exact fun _ => trivial
      · exact fun hcount => hcount
    · exact fun _ _ _ => trivial
  exact hrun.of_ok hmount

/-! ## A directory that is its own hard tail -/

/-- The root names a directory at `{2, 3}` whose hard tail leads back to it. -/
def ringDirectory : Lfs :=
  { blankDevice smallConfig with
    disk := fun block =>
      let entry : List Attr := [(⟨tyCreate, 1, 0⟩, .empty), (⟨tyDir, 1, 1⟩, .bytes [100]),
        (⟨tyDirstruct, 1, 8⟩, .pair (2, 3))]
      if block = 0 then
        { rev := 1, commits := [{ tags := superblockTags smallConfig ++ entry, off := 96 }] }
      else if block = 2 then
        { rev := 1, commits := [{ tags := [(tailTag true, .pair (2, 3))], off := 32 }] }
      else {} }

/-- The state after mounting it. -/
def ringMounted : Lfs :=
  match lfsMount smallConfig 0 ringDirectory with
  | .ok _ lfs => lfs
  | .error _ lfs => lfs

theorem lfsMount_ringDirectory : lfsMount smallConfig 0 ringDirectory = .ok () ringMounted := by
  have hends : endsWith (fun _ => true) (lfsMount smallConfig 0 ringDirectory) = true := by
    decide +kernel
  rw [ringMounted]
  revert hends
  cases lfsMount smallConfig 0 ringDirectory with
  | ok value lfs => exact fun _ => rfl
  | error failure lfs => exact fun h => by cases h

def ringRootDir : Mdir :=
  { pair := (0, 1), rev := 1, off := 96, count := 2, tail := (blockNull, blockNull) }

theorem searches_ringMounted : Searches ringMounted [100, 47, 120] [120] (2, 3) := by
  have hroot : At ringMounted [100, 47, 120] { tail := ringMounted.root } [100, 47, 120] rootTag :=
    .start (by decide) (by decide)
  have hturn : lookupTurn [100, 47, 120] rootTag = .search [100] [47, 120] := by decide +kernel
  have hstart : searchStart ringMounted { tail := ringMounted.root } rootTag = some (0, 1) := by
    decide +kernel
  have hfetched : fetchmatch ringMounted.disk ringMounted.blockCount ringMounted.gdisk
      (findMatch [100]) (0, 1) = .ok ⟨ringRootDir, 1, .found ⟨tyDir, 1, 1⟩⟩ := by decide +kernel
  have hpasses : searchAt ringMounted [100] (0, 1) 0 = some (0, 1) := rfl
  have hturn' : lookupTurn [47, 120] ⟨tyDir, 1, 1⟩ = .search [120] [] := by decide +kernel
  have hstart' : searchStart ringMounted ringRootDir ⟨tyDir, 1, 1⟩ = some (2, 3) := by
    decide +kernel
  exact ⟨ringRootDir, _, _, _, hroot.enter hturn hstart hpasses hfetched rfl, hturn', hstart'⟩

theorem circles_ringMounted : Circles ringMounted [120] (2, 3) := by
  have hnext : searchNext ringMounted [120] (2, 3) = some (2, 3) := by decide +kernel
  exact ⟨0, 1, (2, 3), Nat.zero_lt_one, rfl, hnext⟩

end Littlefs
