import Littlefs.FileOps
import Littlefs.FileBytes

/-!
# An array of bytes with a position

What an open file is to its caller: bytes, a position, and the flag `APPEND`.  A call that
is refused is answered with its error, and the file is as usable as before.
-/

namespace Littlefs

/-- The calls on an open file. -/
inductive Request
  | read (n : ℕ)
  | write (bytes : Bytes)
  | seek (off whence : ℤ)
  | rewind
  | truncate (newSize : ℕ)
  | tell
  | size
  | flush
  deriving DecidableEq, Repr

inductive Reply
  | bytes (data : Bytes)
  | number (n : ℕ)
  | done
  | refused (e : Error)
  deriving DecidableEq, Repr

/-- Cutting off and filling up with zeros leave the bytes in front. -/
theorem getD_takeD_of_lt {data : Bytes} {n i : ℕ} (hi : i < n) :
    (data.takeD n 0).getD i 0 = data.getD i 0 := by
  induction n generalizing data i with
  | zero => exact absurd hi (Nat.not_lt_zero i)
  | succ n ih =>
      cases i with
      | zero => cases data <;> rfl
      | succ i =>
          cases data with
          | nil => exact (ih (Nat.lt_of_succ_lt_succ hi)).trans List.getD_nil
          | cons byte rest => exact ih (Nat.lt_of_succ_lt_succ hi)

/-- Bytes of the same length are equal where all their bytes are. -/
theorem bytes_ext {data data' : Bytes} (hlength : data.length = data'.length)
    (hbyte : ∀ i < data.length, data.getD i 0 = data'.getD i 0) : data = data' := by
  apply List.ext_getElem hlength
  intro i hi hi'
  rw [← List.getD_eq_getElem data 0 hi, ← List.getD_eq_getElem data' 0 hi']
  exact hbyte i hi

structure ByteFile where
  data : Bytes
  pos : ℕ
  append : Bool
  deriving DecidableEq, Repr

/-- `data` with `bytes` in the place of those from `pos` on; a gap is filled with zeros. -/
def spliced (data : Bytes) (pos : ℕ) (bytes : Bytes) : Bytes :=
  data.takeD pos 0 ++ bytes ++ data.drop (pos + bytes.length)

theorem length_spliced (data : Bytes) (pos : ℕ) (bytes : Bytes) :
    (spliced data pos bytes).length = max (pos + bytes.length) data.length := by
  rw [spliced, List.length_append, List.length_append, List.takeD_length, List.length_drop]
  omega

/-- A byte of the new data is one of those put in, or the one that was there. -/
theorem getD_spliced (data : Bytes) (pos : ℕ) (bytes : Bytes) (i : ℕ) :
    (spliced data pos bytes).getD i 0 =
      if pos ≤ i ∧ i < pos + bytes.length then bytes.getD (i - pos) 0 else data.getD i 0 := by
  have hhead : (data.takeD pos 0).length = pos := List.takeD_length _ _ _
  rw [spliced]
  by_cases hbefore : i < pos
  · rw [if_neg (by omega), List.append_assoc, List.getD_append _ _ _ _ (by omega)]
    exact getD_takeD_of_lt hbefore
  · by_cases hinside : i < pos + bytes.length
    · rw [if_pos ⟨by omega, hinside⟩, List.append_assoc, List.getD_append_right _ _ _ _ (by omega),
        hhead, List.getD_append _ _ _ _ (by omega)]
    · rw [if_neg (by omega), List.getD_append_right _ _ _ _ (by rw [List.length_append]; omega),
        List.length_append, hhead, List.getD_eq_getElem?_getD, List.getElem?_drop,
        ← List.getD_eq_getElem?_getD]
      congr 1
      omega

namespace ByteFile

def read (file : ByteFile) (n : ℕ) : Reply × ByteFile :=
  let data := (file.data.drop file.pos).take n
  (.bytes data, { file with pos := file.pos + data.length })

/-- Where a write starts. -/
def writePos (file : ByteFile) : ℕ :=
  if file.append then max file.pos file.data.length else file.pos

def write (fileMax : ℕ) (file : ByteFile) (bytes : Bytes) : Reply × ByteFile :=
  if fileMax < file.writePos + bytes.length then
    (.refused .fileTooBig, { file with pos := file.writePos })
  else
    (.number bytes.length,
      { file with data := spliced file.data file.writePos bytes,
                  pos := file.writePos + bytes.length })

/-- Where a seek ends; one that says neither of the three stays. -/
def target (file : ByteFile) (off whence : ℤ) : ℤ :=
  if whence = lfsSeekSet then off
  else if whence = lfsSeekCur then file.pos + off
  else if whence = lfsSeekEnd then file.data.length + off
  else file.pos

def seek (fileMax : ℕ) (file : ByteFile) (off whence : ℤ) : Reply × ByteFile :=
  let target := file.target off whence
  if target < 0 ∨ fileMax < target then (.refused .invalid, file)
  else (.number target.toNat, { file with pos := target.toNat })

/-- The position stays, be it behind the end. -/
def truncate (fileMax : ℕ) (file : ByteFile) (size : ℕ) : Reply × ByteFile :=
  if fileMax < size then (.refused .invalid, file)
  else (.done, { file with data := file.data.takeD size 0 })

def serve (fileMax : ℕ) (file : ByteFile) : Request → Reply × ByteFile
  | .read n => file.read n
  | .write bytes => file.write fileMax bytes
  | .seek off whence => file.seek fileMax off whence
  | .rewind => (.done, { file with pos := 0 })
  | .truncate newSize => file.truncate fileMax newSize
  | .tell => (.number file.pos, file)
  | .size => (.number file.data.length, file)
  | .flush => (.done, file)

end ByteFile

/-- A call, with the windows that the cache of the file has when it seeks. -/
structure Call where
  key : ℕ
  request : Request
  first : CacheWindow := ⟨0, 0⟩
  last : CacheWindow := ⟨0, 0⟩
  deriving DecidableEq, Repr

/-- The answers of the arrays behind the keys, one call after the other. -/
def serveArrays (fileMax : ℕ) : (ℕ → ByteFile) → List Call → List Reply × (ℕ → ByteFile)
  | arrays, [] => ([], arrays)
  | arrays, call :: calls =>
      let served := (arrays call.key).serve fileMax call.request
      let rest := serveArrays fileMax (Function.update arrays call.key served.2) calls
      (served.1 :: rest.1, rest.2)

/-- The calls that a file refuses leave it usable. -/
def orRefused (program : FsM Reply) : FsM Reply := do
  match ← tryError program with
  | .ok reply => return reply
  | .error .invalid => return .refused .invalid
  | .error .fileTooBig => return .refused .fileTooBig
  | .error e => failWith e

def Call.run (call : Call) : FsM Reply :=
  match call.request with
  | .read n => .bytes <$> lfsFileRead call.key n
  | .write bytes => do
      lfsFileWrite call.key bytes
      return .number bytes.length
  | .seek off whence => .number <$> lfsFileSeek call.key call.first off whence
  | .rewind => do
      lfsFileRewind call.key call.first
      return .done
  | .truncate newSize => do
      lfsFileTruncate call.key call.first call.last newSize
      return .done
  | .tell => .number <$> lfsFileTell call.key
  | .size => .number <$> lfsFileSize call.key
  | .flush => do
      lfsFileFlush call.key
      return .done

/-- The answers to calls on open files, one after the other. -/
def serveCalls : List Call → FsM (List Reply)
  | [] => return []
  | call :: calls => do
      let reply ← orRefused call.run
      let replies ← serveCalls calls
      return reply :: replies

end Littlefs
