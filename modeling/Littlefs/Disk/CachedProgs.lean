import Littlefs.Disk.CachedReads

/-!
# Programming through the cache

`lfs_bd_prog` collects bytes in a window as long as the buffer of the program cache,
which begins at a program unit and is written when it is full; `lfs_bd_flush` writes
what is there, rounded up to a unit.  What is cached and what is on the device make one
image, and a byte that was programmed stays in it.
-/

namespace Littlefs.Disk

open Words

/-- What the calls for one block have in common: `capacity` is the length of the buffer
of the program cache, and `fails` says how the storage answers the write of that number
and its check. -/
structure BdProg where
  progSize : ℕ
  capacity : ℕ
  block : Word
  fails : ℕ → Option Error

/-- The program cache, the bytes of the block, and the offsets and lengths of the
storage writes so far. -/
structure Programming where
  pcache : LfsCache
  image : ℕ → Octet
  writes : List (ℕ × ℕ) := []

/-- `lfs_cache_zero`. -/
def LfsCache.zero (pcache : LfsCache) : LfsCache :=
  { pcache with block := nullWord, buffer := fun _ => 0xff }

namespace BdProg

variable (call : BdProg)

/-- `lfs_bd_flush`. -/
def lfsBdFlush (state : Programming) : Except Fault Programming :=
  if state.pcache.block ≠ nullWord ∧ state.pcache.block ≠ inlineWord then
    let diff := alignupWord state.pcache.size call.progSize
    if call.capacity < diff then
      .error (.panic .sliceRange)
    else
      match call.fails state.writes.length with
      | some e => .error (.error e)
      | none =>
          .ok { pcache := state.pcache.zero
                image := Images.write state.image state.pcache.off
                  (Images.read state.pcache.buffer 0 diff)
                writes := (state.pcache.off, diff) :: state.writes }
  else
    .ok state

/-- `off` is inside the window of the cache. -/
def Fits (state : Programming) (off : ℕ) : Prop :=
  call.block = state.pcache.block ∧ state.pcache.off ≤ off ∧
    off < state.pcache.off + call.capacity

instance (state : Programming) (off : ℕ) : Decidable (call.Fits state off) :=
  inferInstanceAs (Decidable (_ ∧ _ ∧ _))

/-- Prepare the cache.  Its buffer stays, and so does what it has not written. -/
def prepare (state : Programming) (off : ℕ) : Programming :=
  { state with
    pcache := { state.pcache with
      block := call.block
      off := lfsAligndown off call.progSize
      size := 0 } }

/-- Copy into the buffer. -/
def copyIn (state : Programming) (off : ℕ) (bytes : List Octet) : Programming :=
  { state with
    pcache := { state.pcache with
      buffer := Images.write state.pcache.buffer (off - state.pcache.off) bytes
      size := max state.pcache.size (off + bytes.length - state.pcache.off) } }

/-- Write the buffer eagerly when it is full. -/
def flushFull (state : Programming) : Except Fault Programming :=
  if state.pcache.size = call.capacity then call.lfsBdFlush state else .ok state

/-- The loop of `lfs_bd_prog`; the assertion in front of `prepare` is compiled out. -/
def lfsBdProgGo : ℕ → Programming → ℕ → List Octet → Except Fault Programming
  | 0, _, _, _ => .error .outOfFuel
  | fuel + 1, state, off, data =>
      if data = [] then
        .ok state
      else if call.Fits state off then
        let diff := min data.length (call.capacity - (off - state.pcache.off))
        match call.flushFull (copyIn state off (data.take diff)) with
        | .error fault => .error fault
        | .ok state => lfsBdProgGo fuel state (off + diff) (data.drop diff)
      else
        lfsBdProgGo fuel (call.prepare state off) off data

/-- `lfs_bd_prog`. -/
def lfsBdProg (state : Programming) (write : ℕ × List Octet) : Except Fault Programming :=
  call.lfsBdProgGo (2 * write.2.length + 2) state write.1 write.2

/-- A sequence of calls, and the flush behind it. -/
def lfsBdProgs (state : Programming) : List (ℕ × List Octet) → Except Fault Programming
  | [] => call.lfsBdFlush state
  | write :: rest =>
      match call.lfsBdProg state write with
      | .error fault => .error fault
      | .ok state => lfsBdProgs state rest

end BdProg

/-! ## Windows -/

/-- A rounded size that is a slice of the buffer. -/
structure FlushFits (progSize capacity size : ℕ) : Prop where
  no_wrap : size + progSize ≤ 2 ^ 32
  le : lfsAlignup size progSize ≤ capacity

/-- Where the window that takes a byte at `off` starts: `window` is the start and the size of
the open one. -/
def startOf (progSize : ℕ) (window : Option (ℕ × ℕ)) (off : ℕ) : ℕ :=
  match window with
  | some (start, _) => start
  | none => lfsAligndown off progSize

/-- The window that is open behind `len` bytes at `off`: a full one is closed, and the
next one starts where it ends. -/
def windowAfter (progSize capacity : ℕ) (window : Option (ℕ × ℕ)) (off len : ℕ) :
    Option (ℕ × ℕ) :=
  let start := startOf progSize window off
  if len = 0 then window
  else if (off + len - start) % capacity = 0 then none
  else some (start + (off + len - start) / capacity * capacity, (off + len - start) % capacity)

/-- The bytes at `off` begin inside the open window, and where they fill one it can be
written. -/
structure Placed (progSize capacity : ℕ) (window : Option (ℕ × ℕ)) (off len : ℕ) : Prop where
  inside : ∀ start size, window = some (start, size) → off < start + capacity
  full : capacity ≤ off + len - startOf progSize window off → FlushFits progSize capacity capacity

theorem Placed.lt_start {progSize capacity off len : ℕ} {window : Option (ℕ × ℕ)}
    (hplaced : Placed progSize capacity window off len) (hprog : 0 < progSize)
    (hle : progSize ≤ capacity) : off < startOf progSize window off + capacity := by
  cases window with
  | none =>
      have hnear := lt_lfsAligndown_add (a := off) hprog
      change off < lfsAligndown off progSize + capacity
      omega
  | some window => exact hplaced.inside window.1 window.2 rfl

/-- Every call is placed, and what is left in the end can be written. -/
def Laid (progSize capacity : ℕ) : Option (ℕ × ℕ) → List (ℕ × ℕ) → Prop
  | window, [] => ∀ start size, window = some (start, size) → FlushFits progSize capacity size
  | window, (off, len) :: rest =>
      (0 < len → Placed progSize capacity window off len) ∧
        Laid progSize capacity (windowAfter progSize capacity window off len) rest

/-- Offsets that increase, up to `stop`. -/
def Increasing (low stop : ℕ) : List (ℕ × ℕ) → Prop
  | [] => low ≤ stop
  | (off, len) :: rest => low ≤ off ∧ Increasing (off + len) stop rest

instance decidableIncreasing (low stop : ℕ) :
    (layout : List (ℕ × ℕ)) → Decidable (Increasing low stop layout)
  | [] => inferInstanceAs (Decidable (low ≤ stop))
  | (off, len) :: rest =>
      have := decidableIncreasing (off + len) stop rest
      inferInstanceAs (Decidable (low ≤ off ∧ Increasing (off + len) stop rest))

theorem Increasing.le {low stop : ℕ} {layout : List (ℕ × ℕ)}
    (hincreasing : Increasing low stop layout) : low ≤ stop := by
  induction layout generalizing low with
  | nil => exact hincreasing
  | cons span rest ih =>
      have hrest := ih hincreasing.2
      have hfirst := hincreasing.1
      omega

theorem Increasing.mono {low low' stop : ℕ} {layout : List (ℕ × ℕ)}
    (hincreasing : Increasing low stop layout) (hle : low' ≤ low) :
    Increasing low' stop layout := by
  cases layout with
  | nil => exact Nat.le_trans hle hincreasing
  | cons span rest => exact ⟨Nat.le_trans hle hincreasing.1, hincreasing.2⟩

/-! ## One image -/

/-- The bytes of the block with those of the cache over them. -/
def Programming.view (state : Programming) (block : Word) (off : ℕ) : Octet :=
  if block = state.pcache.block ∧ state.pcache.off ≤ off ∧
      off < state.pcache.off + state.pcache.size then
    state.pcache.buffer (off - state.pcache.off)
  else
    state.image off

variable {call : BdProg} {state state' : Programming} {window : Option (ℕ × ℕ)}
  {off stop start size len fuel : ℕ} {data bytes : List Octet}

/-- The cache is where the calls so far have left the window; below `low` stands what they
have programmed. -/
def BdProg.Tracks (call : BdProg) (state : Programming) (low : ℕ) : Option (ℕ × ℕ) → Prop
  | none => state.pcache.block = nullWord ∧ call.progSize ∣ low
  | some (start, size) =>
      state.pcache.block = call.block ∧ state.pcache.off = start ∧ state.pcache.size = size ∧
        call.progSize ∣ start ∧ size < call.capacity ∧ low ≤ start + size

/-- Every storage write so far is a span of program units. -/
def BdProg.Aligned (call : BdProg) (state : Programming) : Prop :=
  ∀ write ∈ state.writes, call.progSize ∣ write.1 ∧ call.progSize ∣ write.2

/-- What is promised about a block and its cache. -/
structure BdProg.Proper (call : BdProg) : Prop where
  prog_pos : 0 < call.progSize
  prog_lt : call.progSize < 2 ^ 32
  prog_le : call.progSize ≤ call.capacity
  block : IsBlock call.block

theorem lfsAligndown_eq_mul (a alignment : ℕ) :
    lfsAligndown a alignment = alignment * (a / alignment) := by
  have hdiv := Nat.div_add_mod a alignment
  rw [lfsAligndown]
  omega

namespace BdProg

theorem alignupWord_eq {a alignment : ℕ} (hpos : 0 < alignment) (hfits : a + alignment ≤ 2 ^ 32) :
    alignupWord a alignment = lfsAlignup a alignment := by
  have hword : (a + alignment + (2 ^ 32 - 1)) % 2 ^ 32 = a + alignment - 1 := by omega
  rw [alignupWord, hword]
  rfl

theorem dvd_alignupWord (a alignment : ℕ) : alignment ∣ alignupWord a alignment :=
  dvd_lfsAligndown _ _

theorem dvd_capacity (hproper : call.Proper)
    (hfits : FlushFits call.progSize call.capacity call.capacity) :
    call.progSize ∣ call.capacity := by
  have hge : call.capacity ≤ lfsAlignup call.capacity call.progSize :=
    le_lfsAlignup hproper.prog_pos
  rw [← Nat.le_antisymm hfits.le hge]
  exact dvd_lfsAlignup _ _

theorem lfsAlignup_of_dvd {a alignment : ℕ} (hpos : 0 < alignment) (hdvd : alignment ∣ a) :
    lfsAlignup a alignment = a :=
  Nat.le_antisymm (lfsAlignup_le hpos (le_refl a) hdvd) (le_lfsAlignup hpos)

theorem view_of_closed (hproper : call.Proper) (hclosed : state.pcache.block = nullWord) :
    state.view call.block = state.image := by
  funext address
  rw [Programming.view, if_neg]
  rintro ⟨hblock, -⟩
  exact hproper.block.1 (hblock.trans hclosed)

/-- The image is what the writes left of the one before below the end of the cache. -/
theorem view_of_written {rounded : ℕ} (hblock : state.pcache.block = call.block)
    (hle : state.pcache.size ≤ rounded)
    (hlt : off < state.pcache.off + state.pcache.size) :
    Images.write state.image state.pcache.off (Images.read state.pcache.buffer 0 rounded) off =
      state.view call.block off := by
  rw [Programming.view]
  by_cases hstart : state.pcache.off ≤ off
  · have hindex : off - state.pcache.off < rounded := by omega
    rw [if_pos ⟨hblock.symm, hstart, hlt⟩, Images.write, if_pos hstart, Images.getElem?_read hindex,
      Nat.zero_add]
    rfl
  · rw [if_neg fun hin => hstart hin.2.1]
    exact Images.write_of_lt (Nat.not_le.mp hstart)

/-- How a call ends that passes on an error of the storage. -/
def refusals (call : BdProg) : Set (Except Fault Programming) :=
  {outcome | ∃ number e, call.fails number = some e ∧ outcome = .error (.error e)}

/-- A flush writes what the cache holds; below its end the image stays, and so do the bytes
of the block behind the last unit. -/
theorem lfsBdFlush_ok (hproper : call.Proper) (hblock : state.pcache.block = call.block)
    (hfits : FlushFits call.progSize call.capacity state.pcache.size)
    (hdvd : call.progSize ∣ state.pcache.off) (haligned : call.Aligned state) :
    (∃ state', call.lfsBdFlush state = .ok state' ∧ state'.pcache.block = nullWord ∧
      call.Aligned state' ∧
      (∀ address < state.pcache.off + state.pcache.size,
        state'.view call.block address = state.view call.block address) ∧
      ∀ address, state.pcache.off + lfsAlignup state.pcache.size call.progSize ≤ address →
        state'.image address = state.image address) ∨
      call.lfsBdFlush state ∈ call.refusals := by
  have hopen : state.pcache.block ≠ nullWord ∧ state.pcache.block ≠ inlineWord := by
    rw [hblock]
    exact hproper.block
  have hround := alignupWord_eq hproper.prog_pos hfits.no_wrap
  have hslice : ¬call.capacity < alignupWord state.pcache.size call.progSize := by
    rw [hround]
    exact Nat.not_lt.mpr hfits.le
  cases hfails : call.fails state.writes.length with
  | some e =>
      refine Or.inr ⟨_, e, hfails, ?_⟩
      simp only [lfsBdFlush, if_pos hopen, if_neg hslice, hfails]
  | none =>
      have hflush : call.lfsBdFlush state = .ok ⟨state.pcache.zero,
          Images.write state.image state.pcache.off (Images.read state.pcache.buffer 0
            (alignupWord state.pcache.size call.progSize)),
          (state.pcache.off, alignupWord state.pcache.size call.progSize) :: state.writes⟩ := by
        simp only [lfsBdFlush, if_pos hopen, if_neg hslice, hfails]
      refine Or.inl ⟨_, hflush, rfl, ?_, ?_, ?_⟩
      · intro write hmem
        obtain rfl | hmem := List.mem_cons.mp hmem
        · exact ⟨hdvd, dvd_alignupWord _ _⟩
        · exact haligned write hmem
      · intro address hlt
        rw [view_of_closed hproper rfl]
        apply view_of_written hblock ?_ hlt
        rw [hround]
        exact le_lfsAlignup hproper.prog_pos
      · intro address hle
        apply Images.write_of_le
        rw [Images.length_read, hround]
        exact hle

/-- Bytes copied into the window are in the image, and what stands below them stays. -/
theorem view_copyIn (bytes : List Octet) (hblock : state.pcache.block = call.block)
    (hoff : state.pcache.off + state.pcache.size ≤ off) :
    (∀ address < state.pcache.off + state.pcache.size,
      (copyIn state off bytes).view call.block address = state.view call.block address) ∧
    Images.read ((copyIn state off bytes).view call.block) off bytes.length = bytes := by
  constructor
  · intro address hlt
    rw [Programming.view, Programming.view]
    by_cases hstart : state.pcache.off ≤ address
    · have hin : address < state.pcache.off +
          max state.pcache.size (off + bytes.length - state.pcache.off) := by omega
      rw [if_pos ⟨hblock.symm, hstart, hin⟩, if_pos ⟨hblock.symm, hstart, hlt⟩]
      apply Images.write_of_lt
      change address - state.pcache.off < off - state.pcache.off
      omega
    · rw [if_neg fun hin => hstart hin.2.1, if_neg fun hin => hstart hin.2.1]
      rfl
  · apply List.ext_getElem
    · exact Images.length_read
    · intro index hleft hright
      have hin : call.block = (copyIn state off bytes).pcache.block ∧
          (copyIn state off bytes).pcache.off ≤ off + index ∧
          off + index < (copyIn state off bytes).pcache.off +
            (copyIn state off bytes).pcache.size := by
        refine ⟨hblock.symm, ?_, ?_⟩
        · change state.pcache.off ≤ off + index
          omega
        · change off + index < state.pcache.off +
            max state.pcache.size (off + bytes.length - state.pcache.off)
          omega
      have hplace : off + index - state.pcache.off = off - state.pcache.off + index := by omega
      have hbyte : (copyIn state off bytes).view call.block (off + index) = bytes[index] := by
        rw [Programming.view, if_pos hin]
        change Images.write state.pcache.buffer (off - state.pcache.off) bytes
          (off + index - state.pcache.off) = bytes[index]
        rw [hplace, Images.write_of_mem hright]
      rw [← hbyte]
      simp only [Images.read, List.getElem_map, List.getElem_range]

/-- From here on nothing is on the device yet. -/
def edge (window : Option (ℕ × ℕ)) (stop : ℕ) : ℕ :=
  match window with
  | some (start, _) => start
  | none => stop

/-- What one call leaves. -/
structure Leaves (call : BdProg) (state state' : Programming) (low off : ℕ)
    (window : Option (ℕ × ℕ)) (data : List Octet) : Prop where
  aligned : call.Aligned state'
  tracks : call.Tracks state' (if data = [] then low else off + data.length)
    (windowAfter call.progSize call.capacity window off data.length)
  below : ∀ address < low, state'.view call.block address = state.view call.block address
  above : ∀ address, edge (windowAfter call.progSize call.capacity window off data.length)
    (off + data.length) ≤ address → state'.image address = state.image address
  read_eq : Images.read (state'.view call.block) off data.length = data

theorem leaves_nil (haligned : call.Aligned state) {low : ℕ}
    (htracks : call.Tracks state low window) :
    call.Leaves state state low off window [] where
  aligned := haligned
  tracks := htracks
  below := fun _ _ => rfl
  above := fun _ _ => rfl
  read_eq := rfl

theorem edge_windowAfter_none {progSize : ℕ} (capacity : ℕ) (hdvd : progSize ∣ off) (len : ℕ) :
    off ≤ edge (windowAfter progSize capacity none off len) (off + len) := by
  have hdown : lfsAligndown off progSize = off := by
    rw [lfsAligndown, Nat.mod_eq_zero_of_dvd hdvd, Nat.sub_zero]
  simp only [windowAfter, startOf, hdown]
  split
  · exact Nat.le_add_right _ _
  · split
    · exact Nat.le_add_right _ _
    · exact Nat.le_add_right _ _

theorem startOf_some (progSize start size off : ℕ) :
    startOf progSize (some (start, size)) off = start := rfl

/-- The window of the bytes that follow a full one. -/
theorem windowAfter_full {progSize capacity diff len : ℕ} (hpos : 0 < capacity)
    (hdvd : progSize ∣ off + diff) (hfull : off + diff = start + capacity) (hdiff : 0 < diff) :
    windowAfter progSize capacity (some (start, size)) off (diff + len) =
      windowAfter progSize capacity none (off + diff) len := by
  have hdown : lfsAligndown (off + diff) progSize = off + diff := by
    rw [lfsAligndown, Nat.mod_eq_zero_of_dvd hdvd, Nat.sub_zero]
  have htotal : off + (diff + len) - start = len + capacity := by omega
  have hsome : diff + len ≠ 0 := by omega
  have hrest : off + diff + len - (off + diff) = len := by omega
  simp only [windowAfter, startOf, hdown, htotal, hrest, if_neg hsome, Nat.add_mod_right,
    Nat.add_div_right _ hpos]
  by_cases hzero : len = 0
  · simp [hzero]
  · rw [if_neg hzero, hfull]
    have hstart : start + (len / capacity).succ * capacity =
        start + capacity + len / capacity * capacity := by
      rw [Nat.succ_mul]
      omega
    rw [hstart]

/-- Bytes that do not fill the window stay in the cache. -/
theorem leaves_copyIn {low : ℕ} (haligned : call.Aligned state)
    (htracks : call.Tracks state low (some (start, size))) (hbehind : start + size ≤ off)
    (hsome : data ≠ []) (hroom : off + data.length - start < call.capacity) :
    call.Leaves state (copyIn state off data) low off (some (start, size)) data := by
  obtain ⟨hblock, rfl, rfl, hdvd, -, hlow⟩ := htracks
  have hlength : 0 < data.length := List.length_pos_iff.mpr hsome
  obtain ⟨hbelow, hread⟩ := view_copyIn data hblock hbehind
  have hmod := Nat.mod_eq_of_lt hroom
  have hdiv := Nat.div_eq_of_lt hroom
  have hzero : data.length ≠ 0 := by omega
  have hpart : ¬off + data.length - state.pcache.off = 0 := by omega
  constructor
  · exact haligned
  · simp only [if_neg hsome, windowAfter, startOf, if_neg hzero, hmod, hdiv, if_neg hpart,
      Nat.zero_mul, Nat.add_zero]
    refine ⟨hblock, rfl, ?_, hdvd, hroom, by omega⟩
    exact max_eq_right (by omega)
  · exact fun address hlt => hbelow address (by omega)
  · exact fun _ _ => rfl
  · exact hread

/-- A full window is written, and the bytes behind it follow. -/
theorem Leaves.of_full {low diff : ℕ} {middle : Programming} (hpos : 0 < call.capacity)
    (hfull : off + diff = start + call.capacity) (hdvd : call.progSize ∣ off + diff)
    (hdiff : 0 < diff) (hle : diff ≤ data.length) (hlow : low ≤ off)
    (hbelow : ∀ address < low, middle.view call.block address = state.view call.block address)
    (hread : Images.read (middle.view call.block) off diff = data.take diff)
    (habove : ∀ address, off + diff ≤ address → middle.image address = state.image address)
    (hrest : call.Leaves middle state' (off + diff) (off + diff) none (data.drop diff)) :
    call.Leaves state state' low off (some (start, size)) data := by
  have hlength : data.length = diff + (data.drop diff).length := by
    rw [List.length_drop]
    omega
  have hsome : data ≠ [] := by
    rintro rfl
    simp at hle
    omega
  have hend : (if data.drop diff = [] then off + diff else off + diff + (data.drop diff).length) =
      off + data.length := by
    split
    · rename_i hnil
      rw [hnil, List.length_nil] at hlength
      omega
    · omega
  constructor
  · exact hrest.aligned
  · have htracks := hrest.tracks
    rw [hend] at htracks
    rw [if_neg hsome, hlength, windowAfter_full hpos hdvd hfull hdiff, ← hlength]
    exact htracks
  · intro address hlt
    rw [hrest.below address (by omega), hbelow address hlt]
  · intro address hle
    rw [hlength, windowAfter_full hpos hdvd hfull hdiff, ← hlength] at hle
    have hend' : off + diff + (data.drop diff).length = off + data.length := by omega
    have hedge := edge_windowAfter_none call.capacity hdvd (data.drop diff).length
    have hle' := hrest.above address (by rw [hend']; exact hle)
    rw [hend'] at hedge
    rw [hle', habove address (Nat.le_trans hedge hle)]
  · have hfront : Images.read (state'.view call.block) off diff =
        Images.read (middle.view call.block) off diff :=
      Images.read_congr fun address _ hlt => hrest.below address hlt
    rw [hlength, Images.read_add, hfront, hread, hrest.read_eq, List.take_append_drop]

/-- A window with room for all bytes takes them in one turn. -/
theorem lfsBdProgGo_last (hsome : data ≠ []) (hfits : call.Fits state off)
    (hroom : off + data.length - state.pcache.off < call.capacity)
    (hsize : state.pcache.off + state.pcache.size ≤ off) :
    call.lfsBdProgGo (fuel + 2) state off data = .ok (copyIn state off data) := by
  have hlength : 0 < data.length := List.length_pos_iff.mpr hsome
  have hle := hfits.2.1
  have hdiff : min data.length (call.capacity - (off - state.pcache.off)) = data.length :=
    min_eq_left (by omega)
  have hpart : (copyIn state off data).pcache.size ≠ call.capacity := by
    change max state.pcache.size (off + data.length - state.pcache.off) ≠ call.capacity
    omega
  rw [lfsBdProgGo, if_neg hsome, if_pos hfits]
  simp only [hdiff, List.take_length, List.drop_length, flushFull, if_neg hpart]
  rw [lfsBdProgGo, if_pos rfl]

/-- A window that is filled is flushed before the rest follows. -/
theorem lfsBdProgGo_full {diff : ℕ} (hsome : data ≠ []) (hfits : call.Fits state off)
    (hdiff : off + diff = state.pcache.off + call.capacity) (hle : diff ≤ data.length)
    (hsize : state.pcache.off + state.pcache.size ≤ off) :
    call.lfsBdProgGo (fuel + 1) state off data =
      match call.lfsBdFlush (copyIn state off (data.take diff)) with
      | .error fault => .error fault
      | .ok state => call.lfsBdProgGo fuel state (off + diff) (data.drop diff) := by
  have hin := hfits.2.1
  have hlt := hfits.2.2
  have hmin : min data.length (call.capacity - (off - state.pcache.off)) = diff := by omega
  have hfull : (copyIn state off (data.take diff)).pcache.size = call.capacity := by
    change max state.pcache.size (off + (data.take diff).length - state.pcache.off) = call.capacity
    rw [List.length_take]
    omega
  rw [lfsBdProgGo, if_neg hsome, if_pos hfits]
  simp only [hmin, flushFull, if_pos hfull]

/-- A window is opened where none is. -/
theorem lfsBdProgGo_prepare (hsome : data ≠ []) (hfits : ¬call.Fits state off) :
    call.lfsBdProgGo (fuel + 1) state off data =
      call.lfsBdProgGo fuel (call.prepare state off) off data := by
  rw [lfsBdProgGo, if_neg hsome, if_neg hfits]

/-- The window that is opened is the one that the layout says. -/
theorem Leaves.of_prepare {low : ℕ} (hproper : call.Proper) (hsome : data ≠ [])
    (hclosed : state.pcache.block = nullWord)
    (hleaves : call.Leaves (call.prepare state off) state' low off
      (some (lfsAligndown off call.progSize, 0)) data) :
    call.Leaves state state' low off none data where
  aligned := hleaves.aligned
  tracks := by
    have htracks := hleaves.tracks
    have hlength : data.length ≠ 0 := fun hzero => hsome (List.length_eq_zero_iff.mp hzero)
    simp only [windowAfter, startOf, if_neg hlength] at htracks ⊢
    exact htracks
  below := by
    intro address hlt
    rw [hleaves.below address hlt, view_of_closed hproper hclosed, Programming.view, if_neg]
    · rfl
    · rintro ⟨-, hle, hlt⟩
      exact absurd hlt (Nat.not_lt.mpr hle)
  above := by
    have habove := hleaves.above
    have hlength : data.length ≠ 0 := fun hzero => hsome (List.length_eq_zero_iff.mp hzero)
    simp only [windowAfter, startOf, if_neg hlength] at habove ⊢
    exact habove
  read_eq := hleaves.read_eq

theorem lfsBdProgGo_ok (hproper : call.Proper) {low : ℕ} (haligned : call.Aligned state)
    (htracks : call.Tracks state low window) (hlow : low ≤ off)
    (hbehind : ∀ start size, window = some (start, size) → start + size ≤ off)
    (hplaced : 0 < data.length → Placed call.progSize call.capacity window off data.length)
    (hfuel : 2 * data.length + (if window.isSome then 1 else 2) ≤ fuel) :
    (∃ state', call.lfsBdProgGo fuel state off data = .ok state' ∧
      call.Leaves state state' low off window data) ∨
      call.lfsBdProgGo fuel state off data ∈ call.refusals := by
  have hprog := hproper.prog_pos
  have hcapacity := hproper.prog_le
  induction fuel generalizing state low window off data with
  | zero => split at hfuel <;> omega
  | succ fuel ih =>
      by_cases hnil : data = []
      · subst hnil
        refine Or.inl ⟨state, ?_, leaves_nil haligned htracks⟩
        rw [lfsBdProgGo, if_pos rfl]
      · have hlength : 0 < data.length := List.length_pos_iff.mpr hnil
        obtain ⟨hinside, hfullFits⟩ := hplaced hlength
        cases window with
        | none =>
            obtain ⟨hclosed, hdvd⟩ := htracks
            have hfits : ¬call.Fits state off :=
              fun hfits => hproper.block.1 (hfits.1.trans hclosed)
            have hopen : call.Tracks (call.prepare state off) low
                (some (lfsAligndown off call.progSize, 0)) := by
              refine ⟨rfl, rfl, rfl, dvd_lfsAligndown _ _, by omega, ?_⟩
              obtain ⟨units, rfl⟩ := hdvd
              rw [Nat.add_zero, lfsAligndown_eq_mul]
              exact Nat.mul_le_mul_left _ ((Nat.le_div_iff_mul_le hprog).mpr (by
                rw [Nat.mul_comm]
                exact hlow))
            have hdown := lfsAligndown_le off call.progSize
            have hnear := lt_lfsAligndown_add (a := off) hprog
            have hplaced' : Placed call.progSize call.capacity
                (some (lfsAligndown off call.progSize, 0)) off data.length := by
              refine ⟨?_, hfullFits⟩
              rintro _ _ ⟨⟩
              omega
            rw [lfsBdProgGo_prepare hnil hfits]
            have haligned' : call.Aligned (call.prepare state off) := haligned
            have hbehind' : ∀ start size, some (lfsAligndown off call.progSize, 0) =
                some (start, size) → start + size ≤ off := by
              rintro _ _ ⟨⟩
              omega
            obtain ⟨state', hrun, hleaves⟩ | herror := ih haligned' hopen hlow hbehind'
              (fun _ => hplaced') (Nat.le_of_succ_le_succ hfuel)
            · exact Or.inl ⟨state', hrun, hleaves.of_prepare hproper hnil hclosed⟩
            · exact Or.inr herror
        | some window =>
            obtain ⟨start, size⟩ := window
            have hend := hbehind start size rfl
            have hin := hinside start size rfl
            have htracks' := htracks
            obtain ⟨hblock, rfl, rfl, hdvd, hsize, hstands⟩ := htracks'
            have hfits : call.Fits state off := ⟨hblock.symm, by omega, hin⟩
            simp only [Option.isSome_some, if_true] at hfuel
            by_cases hroom : off + data.length - state.pcache.off < call.capacity
            · -- the bytes stay in the cache
              obtain ⟨fuel, rfl⟩ : ∃ more, fuel = more + 1 := ⟨fuel - 1, by omega⟩
              refine Or.inl ⟨_, lfsBdProgGo_last hnil hfits hroom hend, ?_⟩
              exact leaves_copyIn haligned htracks hend hnil hroom
            · -- they fill it, and a new call writes the rest
              obtain ⟨diff, hdiff⟩ : ∃ diff, off + diff = state.pcache.off + call.capacity :=
                ⟨state.pcache.off + call.capacity - off, by omega⟩
              have hle : diff ≤ data.length := by omega
              have hfull : FlushFits call.progSize call.capacity call.capacity := by
                apply hfullFits
                rw [startOf_some]
                omega
              have hunit : call.progSize ∣ off + diff := by
                rw [hdiff]
                exact Nat.dvd_add hdvd (dvd_capacity hproper hfull)
              obtain ⟨hbelow, hread⟩ := view_copyIn (data.take diff) hblock hend
              have hcopied : (copyIn state off (data.take diff)).pcache.size = call.capacity := by
                change max state.pcache.size (off + (data.take diff).length - state.pcache.off) =
                  call.capacity
                rw [List.length_take]
                omega
              have htake : (data.take diff).length = diff := List.length_take_of_le hle
              have hblock' : (copyIn state off (data.take diff)).pcache.block = call.block := hblock
              have hflushes : FlushFits call.progSize call.capacity
                  (copyIn state off (data.take diff)).pcache.size := by
                rw [hcopied]
                exact hfull
              rw [lfsBdProgGo_full hnil hfits hdiff hle hend]
              obtain ⟨middle, hflush, hclosed, haligned', hview, habove⟩ |
                  ⟨number, e, hfails, hflush⟩ :=
                lfsBdFlush_ok hproper hblock' hflushes hdvd haligned
              · rw [hflush]
                simp only
                have hview' : ∀ address < off + diff, middle.view call.block address =
                    (copyIn state off (data.take diff)).view call.block address := by
                  intro address hlt
                  apply hview
                  rw [hcopied]
                  exact Nat.lt_of_lt_of_eq hlt hdiff
                have hplaced' : Placed call.progSize call.capacity none (off + diff)
                    (data.drop diff).length := ⟨nofun, fun _ => hfull⟩
                have hfuel' : 2 * (data.drop diff).length + 2 ≤ fuel := by
                  rw [List.length_drop]
                  omega
                have htracks' : call.Tracks middle (off + diff) none := ⟨hclosed, hunit⟩
                have hbehind' : ∀ start size, (none : Option (ℕ × ℕ)) = some (start, size) →
                    start + size ≤ off + diff := nofun
                obtain ⟨state', hrun, hrest⟩ | herror := ih haligned' htracks' (le_refl _)
                  hbehind' (fun _ => hplaced') hfuel'
                · refine Or.inl ⟨state', hrun, ?_⟩
                  apply Leaves.of_full (by omega) hdiff hunit (by omega) hle hlow ?_ ?_ ?_ hrest
                  · intro address hlt
                    rw [hview' address (by omega), hbelow address (by omega)]
                  · have hcongr : Images.read (middle.view call.block) off diff = Images.read
                        ((copyIn state off (data.take diff)).view call.block) off diff :=
                      Images.read_congr fun address _ hlt => hview' address hlt
                    rw [htake] at hread
                    rw [hcongr, hread]
                  · intro address hle'
                    apply habove
                    rw [hcopied, lfsAlignup_of_dvd hproper.prog_pos (dvd_capacity hproper hfull)]
                    exact Nat.le_trans (Nat.le_of_eq hdiff.symm) hle'
                · exact Or.inr herror
              · rw [hflush]
                exact Or.inr ⟨number, e, hfails, rfl⟩

/-! ## Whole sequences -/

/-- The open window ends where the bytes do. -/
theorem windowAfter_end {progSize capacity start' size' : ℕ} (hsome : 0 < len)
    (hwindow : windowAfter progSize capacity window off len = some (start', size')) :
    start' + size' = off + len := by
  have hdiv := Nat.div_add_mod (off + len - startOf progSize window off) capacity
  rw [Nat.mul_comm] at hdiv
  have hlength : len ≠ 0 := by omega
  simp only [windowAfter, if_neg hlength] at hwindow
  split at hwindow
  · cases hwindow
  · injection hwindow with hwindow
    injection hwindow with hstart' hsize'
    omega

/-- The offsets and lengths of the calls. -/
def layoutOf (writes : List (ℕ × List Octet)) : List (ℕ × ℕ) :=
  writes.map fun write => (write.1, write.2.length)

/-- What stands below `low` after a call of `len` bytes at `off`. -/
def lowAfter (low off len : ℕ) : ℕ := if len = 0 then low else off + len

theorem lfsBdProg_ok (hproper : call.Proper) {low : ℕ} (haligned : call.Aligned state)
    (htracks : call.Tracks state low window) (hlow : low ≤ off)
    (hbehind : ∀ start size, window = some (start, size) → start + size ≤ low)
    (hplaced : 0 < data.length → Placed call.progSize call.capacity window off data.length) :
    (∃ state', call.lfsBdProg state (off, data) = .ok state' ∧
      call.Leaves state state' low off window data) ∨
      call.lfsBdProg state (off, data) ∈ call.refusals := by
  have hbehind' : ∀ start size, window = some (start, size) → start + size ≤ off :=
    fun start size hwindow => Nat.le_trans (hbehind start size hwindow) hlow
  apply lfsBdProgGo_ok hproper haligned htracks hlow hbehind' hplaced
  change 2 * data.length + _ ≤ 2 * data.length + 2
  split <;> omega

/-- What is known behind a call, for the next one. -/
theorem Leaves.next {low : ℕ} (hleaves : call.Leaves state state' low off window data)
    (hlow : low ≤ off)
    (hbehind : ∀ start size, window = some (start, size) → start + size ≤ low) :
    call.Tracks state' (lowAfter low off data.length)
        (windowAfter call.progSize call.capacity window off data.length) ∧
      lowAfter low off data.length ≤ off + data.length ∧ low ≤ lowAfter low off data.length ∧
      ∀ start size, windowAfter call.progSize call.capacity window off data.length =
        some (start, size) → start + size ≤ lowAfter low off data.length := by
  have htracks := hleaves.tracks
  by_cases hnil : data = []
  · subst hnil
    exact ⟨htracks, hlow, le_refl _, hbehind⟩
  · have hlength : 0 < data.length := List.length_pos_iff.mpr hnil
    rw [if_neg hnil] at htracks
    rw [lowAfter, if_neg (by omega)]
    refine ⟨htracks, le_refl _, by omega, ?_⟩
    intro start size hwindow
    exact Nat.le_of_eq (windowAfter_end hlength hwindow)

theorem lfsBdFlush_closed (hclosed : state.pcache.block = nullWord) :
    call.lfsBdFlush state = .ok state := by
  rw [lfsBdFlush, if_neg fun hopen => hopen.1 hclosed]

/-- Calls that are laid out in windows are all on the device in the end. -/
theorem lfsBdProgs_ok (hproper : call.Proper) {low : ℕ} (writes : List (ℕ × List Octet))
    (haligned : call.Aligned state) (htracks : call.Tracks state low window)
    (hbehind : ∀ start size, window = some (start, size) → start + size ≤ low)
    (hincreasing : Increasing low stop (layoutOf writes))
    (hlaid : Laid call.progSize call.capacity window (layoutOf writes)) :
    (∃ state', call.lfsBdProgs state writes = .ok state' ∧ call.Aligned state' ∧
      (∀ address < low, state'.image address = state.view call.block address) ∧
      ∀ write ∈ writes, Images.read state'.image write.1 write.2.length = write.2) ∨
      call.lfsBdProgs state writes ∈ call.refusals := by
  induction writes generalizing state low window with
  | nil =>
      rw [lfsBdProgs]
      cases window with
      | none =>
          refine Or.inl ⟨state, lfsBdFlush_closed htracks.1, haligned, ?_, nofun⟩
          rw [view_of_closed hproper htracks.1]
          exact fun _ _ => rfl
      | some window =>
          obtain ⟨hblock, hoff, hsize, hdvd, -, hstands⟩ := htracks
          have hfits : FlushFits call.progSize call.capacity state.pcache.size := by
            rw [hsize]
            exact hlaid window.1 window.2 rfl
          rw [← hoff] at hdvd
          obtain ⟨state', hflush, hclosed, haligned', hview, -⟩ | hrefused :=
            lfsBdFlush_ok hproper hblock hfits hdvd haligned
          · refine Or.inl ⟨state', hflush, haligned', ?_, nofun⟩
            intro address hlt
            rw [← hview address (by omega), view_of_closed hproper hclosed]
          · exact Or.inr hrefused
  | cons write rest ih =>
      obtain ⟨off, data⟩ := write
      obtain ⟨hlow, hincreasing⟩ := hincreasing
      obtain ⟨hplaced, hlaid⟩ := hlaid
      simp only at hlow hincreasing hplaced hlaid
      rw [lfsBdProgs]
      obtain ⟨middle, hrun, hleaves⟩ | ⟨number, e, hfails, hrun⟩ :=
        lfsBdProg_ok hproper haligned htracks hlow hbehind hplaced
      · rw [hrun]
        simp only
        obtain ⟨htracks', hend, hgrows, hbehind'⟩ := hleaves.next hlow hbehind
        obtain ⟨state', hrun', haligned', hbelow, hreads⟩ | hrefused :=
          ih hleaves.aligned htracks' hbehind' (hincreasing.mono hend) hlaid
        · refine Or.inl ⟨state', hrun', haligned', ?_, ?_⟩
          · intro address hlt
            rw [hbelow address (by omega), hleaves.below address hlt]
          · intro write hmem
            obtain rfl | hmem := List.mem_cons.mp hmem
            · have hcongr : Images.read state'.image off data.length =
                  Images.read (middle.view call.block) off data.length := by
                apply Images.read_congr
                intro address _ hlt
                apply hbelow
                rw [lowAfter, if_neg (by omega)]
                exact hlt
              exact hcongr.trans hleaves.read_eq
            · exact hreads write hmem
        · exact Or.inr hrefused
      · rw [hrun]
        exact Or.inr ⟨number, e, hfails, rfl⟩

end BdProg

end Littlefs.Disk
