import Littlefs.Fetch

/-!
# Traversing a log with pending attributes

`lfs_dir_traverse` walks the tags of a metadata block followed by a list of
attributes.  The explicit stack of the source is written as recursion here: a
tag selected by the mask is first run through `lfs_dir_traverse_filter` against
everything that follows it, then dispatched.
-/

namespace Littlefs

/-- What the `buffer` of an `LfsMattr` points to. -/
inductive Buffer
  | data (payload : Payload)
  | mdir (dir : Mdir)
  | attrs (list : List UserAttr)
  deriving DecidableEq, Repr

/-- `LfsMattr`. -/
structure Mattr where
  tag : Tag
  buffer : Buffer := .data .empty
  deriving DecidableEq, Repr

def diskMattr (attr : Attr) : Mattr := ⟨attr.1, .data attr.2⟩

/-- The tag that ends a commit; a traversal passes over it like over the others. -/
def checksumMattr : Mattr := ⟨⟨tyCcrc, 0x3ff, 0⟩, .data .empty⟩

/-- The tags of a block in the order of a traversal. -/
def mdirMattrs (disk : Block → BlockImage) (dir : Mdir) : List Mattr :=
  ((disk dir.pair.1).commits.takeWhile fun commit => commit.off ≤ dir.off).flatMap fun commit =>
    commit.tags.map diskMattr ++ [checksumMattr]

/-- `lfs_dir_traverse_filter`: `none` when `tag` makes `filtertag` redundant,
otherwise `filtertag` with its id moved past the splice. -/
def lfsDirTraverseFilter (filtertag tag : Tag) : Option Tag :=
  let mask := if tag.type &&& 0x100 ≠ 0 then 0x7ff else 0x700
  if (tag.type &&& mask = filtertag.type &&& mask ∧ tag.id = filtertag.id) ∨
      filtertag.isdelete ∨ (tag.type = tyDelete ∧ tag.id = filtertag.id) then
    none
  else if tag.type1 = tySplice ∧ tag.id ≤ filtertag.id then
    some (filtertag.shift tag.splice)
  else
    some filtertag

/-- The tag of one attribute of an `LFS_FROM_USERATTRS` entry: the id is
shifted here and once more by `dispatch_tag`. -/
def userattrTag (tag : Tag) (diff : ℤ) (attr : UserAttr) : Tag :=
  (lfsMktag (tyUserattr + attr.type) ((tag.id : ℤ) + diff).toNat attr.buffer.length).shift diff

def filterUserattrs (filtertag tag : Tag) : List UserAttr → Option Tag
  | [] => some filtertag
  | attr :: attrs =>
      match lfsDirTraverseFilter filtertag (userattrTag tag 0 attr) with
      | none => none
      | some filtertag => filterUserattrs filtertag tag attrs

/-- The nested traversal with the filter as its callback.  An `LFS_FROM_MOVE`
is passed over, since the entry it fills was created just before. -/
def filterRest (filtertag : Tag) : List Mattr → Option Tag
  | [] => some filtertag
  | mattr :: rest =>
      if mattr.tag.type3 = fromNoop ∨ mattr.tag.type3 = fromMove then
        filterRest filtertag rest
      else
        let filtered :=
          match mattr.buffer with
          | .attrs list =>
              if mattr.tag.type3 = fromUserattrs then filterUserattrs filtertag mattr.tag list
              else lfsDirTraverseFilter filtertag mattr.tag
          | _ => lfsDirTraverseFilter filtertag mattr.tag
        match filtered with
        | none => none
        | some filtertag => filterRest filtertag rest

/-- The tags that pass `tmask`/`ttag`, survive the filter and end up with an id
in `[first, last)`, each handed to `process`. -/
def traverseFiltered (tmask ttag first last : ℕ) (process : Tag → Buffer → List Attr) :
    List Mattr → List Attr
  | [] => []
  | mattr :: rest =>
      let written :=
        if mattr.tag.type &&& tmask = ttag &&& tmask then
          match filterRest mattr.tag rest with
          | none => []
          | some tag => if first ≤ tag.id ∧ tag.id < last then process tag mattr.buffer else []
        else
          []
      written ++ traverseFiltered tmask ttag first last process rest

def dispatchTag (diff : ℤ) (tag : Tag) (buffer : Buffer) : List Attr :=
  match buffer with
  | .data payload => [(tag.shift diff, payload)]
  | _ => [(tag.shift diff, .empty)]

/-- `LFS_FROM_MOVE`: the struct and the attributes of entry `fromid` of another
directory, without attributes of its own. -/
def traverseMove (disk : Block → BlockImage) (source : Mdir) (fromid toid : ℕ) (diff : ℤ) :
    List Attr :=
  traverseFiltered 0x600 tyStruct fromid (fromid + 1)
    (dispatchTag ((toid : ℤ) - fromid + diff)) (mdirMattrs disk source)

def processTag (disk : Block → BlockImage) (diff : ℤ) (tag : Tag) (buffer : Buffer) :
    List Attr :=
  if tag.type3 = fromNoop then
    []
  else
    match buffer with
    | .mdir source =>
        if tag.type3 = fromMove then traverseMove disk source tag.size tag.id diff
        else dispatchTag diff tag buffer
    | .attrs list =>
        if tag.type3 = fromUserattrs then
          list.map fun attr => (userattrTag tag diff attr, .bytes attr.buffer)
        else dispatchTag diff tag buffer
    | .data _ => dispatchTag diff tag buffer

/-- The traversal of an append: no mask, only the attributes. -/
def traverseAttrs (disk : Block → BlockImage) (attrs : List Mattr) : List Attr :=
  attrs.flatMap fun mattr => processTag disk 0 mattr.tag mattr.buffer

/-- The traversal of a compaction of `[first, last)`: every live name, struct
and custom attribute, with ids counted from `first`. -/
def traverseCompact (disk : Block → BlockImage) (source : Mdir) (attrs : List Mattr)
    (first last : ℕ) : List Attr :=
  traverseFiltered 0x400 tyName first last (processTag disk (-(first : ℤ)))
    (mdirMattrs disk source ++ attrs)

/-- `lfs_dir_commit_size` summed over a traversal. -/
def attrsSize (attrs : List Attr) : ℕ := (attrs.map fun attr => attr.1.dsize).sum

end Littlefs
