import Littlefs.Rewrite
import Littlefs.Compaction

/-!
# The global state in the metadata

Every metadata pair stores a share of the global state; the exclusive or of all
shares is the state on disk.  The low ten bits of the tag word stay in memory.
-/

namespace Littlefs

open Edits

namespace Gstate

theorem xor_comm (a b : Gstate) : a.xor b = b.xor a := by
  simp only [Gstate.xor, Bool.xor_comm, Nat.xor_comm]

theorem xor_assoc (a b c : Gstate) : (a.xor b).xor c = a.xor (b.xor c) := by
  simp only [Gstate.xor, Bool.xor_assoc, Nat.xor_assoc]

instance : Std.Commutative Gstate.xor := ⟨xor_comm⟩

instance : Std.Associative Gstate.xor := ⟨xor_assoc⟩

@[simp]
theorem xor_self (a : Gstate) : a.xor a = {} := by
  simp [Gstate.xor]

@[simp]
theorem xor_zero (a : Gstate) : a.xor {} = a := by
  simp [Gstate.xor]

@[simp]
theorem zero_xor (a : Gstate) : ({} : Gstate).xor a = a := by
  rw [xor_comm, xor_zero]

@[simp]
theorem dropSize_xor (a b : Gstate) : (a.xor b).dropSize = a.dropSize.xor b.dropSize := by
  simp [Gstate.xor, dropSize]

@[simp]
theorem dropSize_dropSize (a : Gstate) : a.dropSize.dropSize = a.dropSize := rfl

@[simp]
theorem dropSize_zero : ({} : Gstate).dropSize = {} := rfl

/-- Equal outside the low ten bits of the tag. -/
def Same (a b : Gstate) : Prop := a.dropSize = b.dropSize

instance (a b : Gstate) : Decidable (a.Same b) :=
  inferInstanceAs (Decidable (a.dropSize = b.dropSize))

theorem Same.refl (a : Gstate) : a.Same a := rfl

theorem Same.symm {a b : Gstate} (hsame : a.Same b) : b.Same a := Eq.symm hsame

theorem Same.trans {a b c : Gstate} (hab : a.Same b) (hbc : b.Same c) : a.Same c :=
  Eq.trans hab hbc

theorem Same.xor {a b c d : Gstate} (hab : a.Same b) (hcd : c.Same d) :
    (a.xor c).Same (b.xor d) := by
  rw [Same, dropSize_xor, dropSize_xor, hab, hcd]

theorem same_dropSize (a : Gstate) : a.dropSize.Same a := rfl

end Gstate

/-! ## The share of one log -/

/-- No tag of the log is taken for a share. -/
def Stateless (log : List Attr) : Prop := ∀ attr ∈ log, attr.1.type &&& 0x7ff ≠ tyMovestate

theorem Stateless.append {log more : List Attr} (hlog : Stateless log) (hmore : Stateless more) :
    Stateless (log ++ more) := fun attr hattr =>
  (List.mem_append.mp hattr).elim (hlog attr) (hmore attr)

theorem getsliceGo_stateless {log : List Attr} (hlog : Stateless log) (older : List Attr) :
    getsliceGo ⟨0x7ff, false⟩ ⟨tyMovestate, 0, 12⟩ (log ++ older) 0 =
      getsliceGo ⟨0x7ff, false⟩ ⟨tyMovestate, 0, 12⟩ older 0 := by
  induction log with
  | nil => rfl
  | cons attr log ih =>
      obtain ⟨hattr, hlog⟩ := List.forall_mem_cons.mp hlog
      have hmask : attr.1.type &&& 0x7ff ≠ tyMovestate &&& 0x7ff := hattr
      rw [List.cons_append, getsliceGo]
      simp only [Bool.false_and, Bool.false_eq_true, if_false, hmask, false_and]
      exact ih hlog

theorem logGstate_append {log more : List Attr} (hmore : Stateless more) :
    logGstate (log ++ more) = logGstate log := by
  have hreverse : Stateless more.reverse := fun attr hattr => hmore attr (List.mem_reverse.mp hattr)
  rw [logGstate, List.reverse_append, getsliceGo_stateless hreverse]
  rfl

theorem logGstate_movestateTag (log : List Attr) (delta : Gstate) :
    logGstate (log ++ [(movestateTag, .gstate delta)]) = delta := by
  rw [logGstate, List.reverse_append, List.reverse_singleton, List.singleton_append, getsliceGo]
  simp [movestateTag, Tag.isdelete]

theorem logGstate_gstateTags (log : List Attr) (delta : Gstate) :
    logGstate (log ++ gstateTags delta) = if delta.iszero then logGstate log else delta := by
  unfold gstateTags
  split
  · rw [List.append_nil]
  · exact logGstate_movestateTag log delta

theorem logGstate_compact {tags : List Attr} (htags : Stateless tags) (delta : Gstate) :
    logGstate (tags ++ gstateTags delta) = delta := by
  rw [logGstate_gstateTags]
  split
  · rename_i hzero
    have hnil : logGstate ([] ++ tags) = logGstate [] := logGstate_append htags
    rw [List.nil_append] at hnil
    have hdelta : delta = {} := by simpa [Gstate.iszero] using hzero
    rw [hnil, hdelta]
    rfl
  · rfl

/-- The share of `dir`, which `lfs_dir_getgstate` adds. -/
def share (lfs : Lfs) (dir : Mdir) : Gstate := logGstate (readableLog lfs dir)

/-! ## Attribute lists -/

/-- The attributes that the callers of a commit build. -/
inductive Built (disk : Block → BlockImage) : Mattr → Prop
  | plain {mattr : Mattr} (hplain : Plain mattr) : Built disk mattr
  | move {tag : Tag} {source : Mdir} (htype : tag.type = fromMove)
      (hsource : LogWf (mdirLog disk source)) : Built disk ⟨tag, .mdir source⟩
  | userattrs {tag : Tag} {list : List UserAttr} (htype : tag.type = fromUserattrs)
      (hlist : UserAttrsWf list) : Built disk ⟨tag, .attrs list⟩

theorem userattrTag_zero (tag : Tag) (attr : UserAttr) (hlength : attr.buffer.length < 0x3ff) :
    userattrTag tag 0 attr = ⟨tyUserattr + attr.type, tag.id, attr.buffer.length⟩ := by
  rw [userattrTag, lfsMktag_eq (by omega), Tag.shift_zero]
  simp

theorem tagWf_userattr {type size : ℕ} (id : ℕ) (htype : type < 0x100) (hsize : size < 0x3ff) :
    TagWf ⟨tyUserattr + type, id, size⟩ := by
  obtain ⟨-, -, htype1⟩ := userattr_bits htype
  have hbase : tyUserattr = 0x300 := rfl
  refine ⟨by simp only [hbase]; omega, by simp only [hbase, fromNoop]; omega, ?_, ?_, ?_⟩
  · simp only [htype1]
    decide
  · intro hdelete
    simp only [Tag.isdelete, beq_iff_eq] at hdelete
    omega
  · intro hsplice
    simp only [htype1] at hsplice
    cases hsplice

section

variable {disk : Block → BlockImage}

theorem filterUserattrs_type {filtertag tag result : Tag} {list : List UserAttr}
    (hlist : UserAttrsWf list) (hresult : filterUserattrs filtertag tag list = some result) :
    result.type = filtertag.type := by
  induction list generalizing filtertag with
  | nil =>
      cases hresult
      rfl
  | cons attr list ih =>
      obtain ⟨htype, hlength, hagree⟩ := hlist
      have hwf := tagWf_userattr tag.id (htype attr List.mem_cons_self)
        (hlength attr List.mem_cons_self)
      rw [filterUserattrs, userattrTag_zero tag attr (hlength attr List.mem_cons_self)] at hresult
      split at hresult
      · cases hresult
      · rename_i middle hmiddle
        have hrest : UserAttrsWf list :=
          ⟨fun a ha => htype a (List.mem_cons_of_mem _ ha),
            fun a ha => hlength a (List.mem_cons_of_mem _ ha),
            fun a ha b hb => hagree a (List.mem_cons_of_mem _ ha) b (List.mem_cons_of_mem _ hb)⟩
        rw [ih hrest hresult, lfsDirTraverseFilter_type hwf hmiddle]

theorem filterRest_userattrs (filtertag : Tag) {tag : Tag} (list : List UserAttr)
    (rest : List Mattr) (htype : tag.type = fromUserattrs) :
    filterRest filtertag (⟨tag, .attrs list⟩ :: rest) =
      (filterUserattrs filtertag tag list).bind fun filtertag => filterRest filtertag rest := by
  have hskip : ¬(fromUserattrs = fromNoop ∨ fromUserattrs = fromMove) := by decide
  rw [filterRest]
  simp only [Tag.type3, htype, if_neg hskip, if_true]
  cases filterUserattrs filtertag tag list <;> rfl

/-- The filter keeps the type of a tag. -/
theorem filterRest_type_built {filtertag result : Tag} {rest : List Mattr}
    (hbuilt : ∀ mattr ∈ rest, Built disk mattr)
    (hresult : filterRest filtertag rest = some result) :
    result.type = filtertag.type := by
  induction rest generalizing filtertag with
  | nil =>
      cases hresult
      rfl
  | cons mattr rest ih =>
      obtain ⟨hmattr, hrest⟩ := List.forall_mem_cons.mp hbuilt
      cases hmattr with
      | plain hplain =>
          cases hplain with
          | noop htype =>
              rw [filterRest_noop _ _ _ htype] at hresult
              exact ih hrest hresult
          | data hwf =>
              rw [filterRest_data _ _ _ hwf] at hresult
              obtain ⟨middle, hfilter, hmiddle⟩ := Option.bind_eq_some_iff.mp hresult
              rw [ih hrest hmiddle, lfsDirTraverseFilter_type hwf hfilter]
      | move htype hsource =>
          rw [filterRest_move _ _ _ htype] at hresult
          exact ih hrest hresult
      | userattrs htype hlist =>
          rw [filterRest_userattrs _ _ _ htype] at hresult
          obtain ⟨middle, hfilter, hmiddle⟩ := Option.bind_eq_some_iff.mp hresult
          rw [ih hrest hmiddle, filterUserattrs_type hlist hfilter]

/-! ## What a traversal writes -/

theorem and_splice_of_lt {type : ℕ} (hlt : type < 0x400) : type &&& 0x400 = 0 := by
  apply Nat.eq_of_testBit_eq
  intro i
  have hmask : (0x400 : ℕ) = 2 ^ 10 := rfl
  rw [Nat.testBit_and, hmask, Nat.testBit_two_pow, Nat.zero_testBit]
  by_cases hi : 10 = i
  · rw [← hi, Nat.testBit_lt_two_pow hlt, Bool.false_and]
  · simp [hi]

/-- The tags of names, structs and attributes. -/
def Low (log : List Attr) : Prop := ∀ attr ∈ log, attr.1.type &&& 0x400 = 0

theorem Low.append {log more : List Attr} (hlog : Low log) (hmore : Low more) :
    Low (log ++ more) := fun attr hattr =>
  (List.mem_append.mp hattr).elim (hlog attr) (hmore attr)

theorem Low.stateless {log : List Attr} (hlow : Low log) : Stateless log := by
  intro attr hattr hstate
  have hbits := congrArg (· &&& 0x400) hstate
  simp only [Nat.and_assoc] at hbits
  have hmask : 0x7ff &&& 0x400 = 0x400 := rfl
  rw [hmask, hlow attr hattr] at hbits
  exact absurd hbits (by decide)

/-- What a filtered traversal writes, from what each of its tags writes. -/
theorem low_traverseFiltered (tmask ttag first last : ℕ) (process : Tag → Buffer → List Attr)
    {mattrs : List Mattr} (hbuilt : ∀ mattr ∈ mattrs, Built disk mattr)
    (hprocess : ∀ mattr ∈ mattrs, ∀ result : Tag, mattr.tag.type &&& tmask = ttag &&& tmask →
      result.type = mattr.tag.type → first ≤ result.id → result.id < last →
      Low (process result mattr.buffer)) :
    Low (traverseFiltered tmask ttag first last process mattrs) := by
  induction mattrs with
  | nil => exact fun _ h => absurd h List.not_mem_nil
  | cons mattr rest ih =>
      obtain ⟨hmattr, hrest⟩ := List.forall_mem_cons.mp hbuilt
      obtain ⟨hhead, htail⟩ := List.forall_mem_cons.mp hprocess
      rw [traverseFiltered]
      apply Low.append _ (ih hrest htail)
      have hnil : Low [] := fun _ h => absurd h List.not_mem_nil
      split
      · rename_i hmask
        split
        · exact hnil
        · rename_i result hresult
          split
          · rename_i hrange
            exact hhead result hmask (filterRest_type_built hrest hresult) hrange.1 hrange.2
          · exact hnil
      · exact hnil

theorem low_dispatchTag {tag : Tag} {diff : ℤ} (buffer : Buffer) (htype : tag.type &&& 0x400 = 0)
    (hid : 0 ≤ (tag.id : ℤ) + diff) : Low (dispatchTag diff tag buffer) := by
  have hshift : (tag.shift diff).type &&& 0x400 = 0 := by
    rw [Tag.shift_of_nonneg hid]
    exact htype
  intro attr hattr
  unfold dispatchTag at hattr
  split at hattr
  · rw [List.mem_singleton.mp hattr]
    exact hshift
  · rw [List.mem_singleton.mp hattr]
    exact hshift

theorem low_traverseMove {source : Mdir} (hsource : LogWf (mdirLog disk source)) {fromid toid : ℕ}
    {diff : ℤ} (hid : 0 ≤ (toid : ℤ) + diff) : Low (traverseMove disk source fromid toid diff) := by
  have hbuilt : ∀ mattr ∈ mdirMattrs disk source, Built disk mattr := fun mattr hmattr =>
    .plain (plain_mdirMattrs hsource mattr hmattr)
  apply low_traverseFiltered _ _ _ _ _ hbuilt
  intro mattr _ result hmask htype hfirst hlast
  apply low_dispatchTag
  · have hbits := congrArg (· &&& 0x400) hmask
    simp only [Nat.and_assoc] at hbits
    rw [htype]
    exact hbits
  · omega

/-- The id is shifted twice, which may borrow from the type. -/
theorem low_userattrTag {tag : Tag} {first : ℕ} {attr : UserAttr} (htype : attr.type < 0x100)
    (hlength : attr.buffer.length < 0x3ff) (hfirst : first < 2 ^ 16) (hid : first ≤ tag.id) :
    (userattrTag tag (-(first : ℤ)) attr).type &&& 0x400 = 0 := by
  have hbase : tyUserattr = 0x300 := rfl
  rw [userattrTag, lfsMktag_eq (by omega)]
  unfold Tag.shift
  split
  · apply and_splice_of_lt
    simp only [hbase]
    omega
  · rename_i hborrow
    apply and_splice_of_lt
    simp only [hbase] at hborrow ⊢
    omega

theorem low_processTag {mattr : Mattr} (hbuilt : Built disk mattr) {first : ℕ}
    (hfirst : first < 2 ^ 16) {result : Tag} (htype : result.type = mattr.tag.type)
    (hlow : mattr.tag.type &&& 0x400 = 0) (hid : first ≤ result.id) :
    Low (processTag disk (-(first : ℤ)) result mattr.buffer) := by
  have hdispatch : ∀ buffer, Low (dispatchTag (-(first : ℤ)) result buffer) := fun buffer =>
    low_dispatchTag buffer (htype ▸ hlow) (by omega)
  cases hbuilt with
  | plain hplain =>
      cases hplain with
      | noop hnoop =>
          rw [processTag_noop _ _ _ (htype.trans hnoop)]
          exact fun _ h => absurd h List.not_mem_nil
      | data hwf =>
          rw [processTag_data _ _ _ (htype ▸ hwf.type_ne)]
          exact hdispatch (.data _)
  | @move tag source hmove hsource =>
      rw [processTag_move _ _ _ (htype.trans hmove)]
      exact low_traverseMove hsource (by omega)
  | @userattrs tag list hattrs hlist =>
      rw [processTag_userattrs _ _ _ (htype.trans hattrs)]
      intro attr hattr
      obtain ⟨userattr, hmem, rfl⟩ := List.mem_map.mp hattr
      exact low_userattrTag (hlist.type_lt userattr hmem) (hlist.length_lt userattr hmem) hfirst hid

/-- A compaction copies names, structs and attributes only. -/
theorem low_traverseCompact {source : Mdir} {attrs : List Mattr} {first last : ℕ}
    (hlog : LogWf (mdirLog disk source)) (hbuilt : ∀ mattr ∈ attrs, Built disk mattr)
    (hfirst : first < 2 ^ 16) : Low (traverseCompact disk source attrs first last) := by
  have hall : ∀ mattr ∈ mdirMattrs disk source ++ attrs, Built disk mattr := by
    intro mattr hmattr
    apply (List.mem_append.mp hmattr).elim
    · exact fun hdisk => .plain (plain_mdirMattrs hlog mattr hdisk)
    · exact hbuilt mattr
  apply low_traverseFiltered _ _ _ _ _ hall
  exact fun mattr hmattr result hmask htype hid _ =>
    low_processTag (hall mattr hmattr) hfirst htype hmask hid

end

end Littlefs
