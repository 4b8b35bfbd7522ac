import Fixity.Frame

/-!
# Frames of raw blocks

The container of the Zstandard format: a magic number, a header that may say how long the content is,
and blocks.  A block holds its bytes as they are, or one byte that is repeated.  Frames may follow
each other, and their contents are put together.

Frames are written with blocks of the first sort only and without the length of the content.  Reading
undoes writing however long the content is, so this is a `Compression` (`Frame.raw`).  Blocks that are
really compressed, dictionaries and checksums are not read.
-/

namespace Fixity.Frame

namespace Raw

def maxBlock : Nat := 131072

/-- A number in the given count of bytes, the lowest byte first. -/
def littleEndian : Nat → Nat → Bytes
  | 0, _ => []
  | width + 1, n => UInt8.ofNat (n % 256) :: littleEndian width (n / 256)

def ofLittleEndian (bs : Bytes) : Nat := bs.foldr (fun b n => b.toNat + 256 * n) 0

def take? (n : Nat) (bs : Bytes) : Option (Bytes × Bytes) :=
  let taken := bs.take n
  if taken.length = n then some (taken, bs.drop n) else none

/-! ### Writing -/

/-- Blocks that hold the bytes as they are; there is at least one. -/
def blocks (bs : Bytes) : Bytes :=
  if _h : bs.length ≤ maxBlock then littleEndian 3 (bs.length * 8 + 1) ++ bs
  else littleEndian 3 (maxBlock * 8) ++ bs.take maxBlock ++ blocks (bs.drop maxBlock)
termination_by bs.length
decreasing_by
  have : 0 < maxBlock := by decide
  simp only [List.length_drop]
  omega

/-- One frame with the given content.  Its window holds one block. -/
def compress (bs : Bytes) : Bytes := magic ++ 0x00 :: 0x38 :: blocks bs

/-! ### Reading -/

/-- Reads blocks up to the last one of a frame, of which there are at most `bound`. -/
def readBlocks? (window : Nat) (read : Bytes) : Nat → Bytes → Option (Bytes × Bytes)
  | 0, _ => none
  | bound + 1, bs =>
    match take? 3 bs with
    | none => none
    | some (header, rest) =>
      let n := ofLittleEndian header
      let size := n / 8
      if maxBlock < size ∨ window < size then none
      else
        let block? := match n / 2 % 4 with
          | 0 => take? size rest
          | 1 => (take? 1 rest).map fun (b, rest) => (b.flatMap (List.replicate size), rest)
          | _ => none
        match block? with
        | none => none
        | some (block, rest) =>
          if n % 2 = 1 then some (read ++ block, rest)
          else readBlocks? window (read ++ block) bound rest

/-- The size of a window from its descriptor: a power of two and some eighths of it. -/
def windowSize (descriptor : UInt8) : Nat :=
  let base := Nat.pow 2 (10 + descriptor.toNat / 8)
  base + base / 8 * (descriptor.toNat % 8)

def readFrame? (bound : Nat) (bs : Bytes) : Option (Bytes × Bytes) := do
  let (descriptor, rest) ← take? 1 bs
  let d := ofLittleEndian descriptor
  let single := d / 32 % 2 = 1
  -- a reserved bit, a checksum or a dictionary
  if d / 8 % 2 = 1 ∨ d / 4 % 2 = 1 ∨ d % 4 ≠ 0 then none
  let (window, rest) ← take? (if single then 0 else 1) rest
  let width := match d / 64 with
    | 0 => if single then 1 else 0
    | 1 => 2
    | 2 => 4
    | _ => 8
  let (size, rest) ← take? width rest
  let size? := if width = 0 then none
    else some (ofLittleEndian size + if width = 2 then 256 else 0)
  let window := match window with
    | [w] => windowSize w
    | _ => max 1024 (size?.getD 0)
  let (content, rest) ← readBlocks? window [] bound rest
  if size?.all (· = content.length) then some (content, rest) else none

def readFrames? (total : Nat) (read : Bytes) : Nat → Bytes → Option Bytes
  | _, [] => some read
  | 0, _ :: _ => none
  | bound + 1, bs =>
    match Bytes.after? magic bs with
    | none => none
    | some rest =>
      match readFrame? total rest with
      | none => none
      | some (content, rest) => readFrames? total (read ++ content) bound rest

def decompress? (bs : Bytes) : Option Bytes := readFrames? bs.length [] bs.length bs

/-! ### Frames give back their content -/

theorem length_littleEndian (width n : Nat) : (littleEndian width n).length = width := by
  induction width generalizing n with
  | zero => rfl
  | succ width ih => rw [littleEndian, List.length_cons, ih]

theorem ofLittleEndian_littleEndian {width n : Nat} (h : n < Nat.pow 256 width) :
    ofLittleEndian (littleEndian width n) = n := by
  induction width generalizing n with
  | zero =>
    have hn : n = 0 := Nat.lt_one_iff.mp h
    rw [hn]
    rfl
  | succ width ih =>
    have hdiv : n / 256 < Nat.pow 256 width :=
      Nat.div_lt_of_lt_mul (Nat.mul_comm (Nat.pow 256 width) 256 ▸ h)
    have hbyte : (UInt8.ofNat (n % 256)).toNat = n % 256 := by
      rw [UInt8.toNat_ofNat']
      omega
    have hrest := ih hdiv
    rw [ofLittleEndian] at hrest
    rw [littleEndian, ofLittleEndian, List.foldr_cons, hrest, hbyte]
    omega

theorem take?_append {n : Nat} {as : Bytes} (h : as.length = n) (bs : Bytes) :
    take? n (as ++ bs) = some (as, bs) := by
  subst h
  simp [take?]

theorem readBlocks?_block {window bound size last : Nat} {read block rest : Bytes}
    (hsize : size ≤ maxBlock) (hwindow : maxBlock ≤ window) (hlast : last < 2)
    (hblock : block.length = size) :
    readBlocks? window read (bound + 1) (littleEndian 3 (size * 8 + last) ++ (block ++ rest)) =
      if last = 1 then some (read ++ block, rest)
      else readBlocks? window (read ++ block) bound rest := by
  have hmax : maxBlock = 131072 := rfl
  have hwidth : Nat.pow 256 3 = 16777216 := rfl
  have hheader : ofLittleEndian (littleEndian 3 (size * 8 + last)) = size * 8 + last :=
    ofLittleEndian_littleEndian (by omega)
  have hdiv : (size * 8 + last) / 8 = size := by omega
  have hsort : (size * 8 + last) / 2 % 4 = 0 := by omega
  have hbit : (size * 8 + last) % 2 = last := by omega
  rw [readBlocks?, take?_append (length_littleEndian 3 _)]
  simp only [hheader, hdiv, hsort, hbit]
  rw [if_neg (by omega), take?_append hblock]

theorem readBlocks?_blocks (window : Nat) (hwindow : maxBlock ≤ window) (bs rest : Bytes) :
    ∀ (read : Bytes) (bound : Nat), (blocks bs).length ≤ bound →
      readBlocks? window read bound (blocks bs ++ rest) = some (read ++ bs, rest) := by
  fun_induction blocks bs with
  | case1 bs h =>
    intro read bound hbound
    obtain ⟨bound, rfl⟩ : ∃ k, bound = k + 1 := by
      refine Nat.exists_eq_add_one.mpr ?_
      rw [List.length_append, length_littleEndian] at hbound
      omega
    rw [List.append_assoc, readBlocks?_block h hwindow (by decide) rfl, if_pos rfl]
  | case2 bs h ih =>
    intro read bound hbound
    rw [List.length_append, List.length_append, length_littleEndian] at hbound
    obtain ⟨bound, rfl⟩ : ∃ k, bound = k + 1 := Nat.exists_eq_add_one.mpr (by omega)
    have htake : (bs.take maxBlock).length = maxBlock := by
      rw [List.length_take]
      omega
    have hblock := @readBlocks?_block window bound maxBlock 0 read (bs.take maxBlock)
      (blocks (bs.drop maxBlock) ++ rest) (Nat.le_refl _) hwindow (by decide) htake
    rw [if_neg (by decide), ih _ bound (by omega), List.append_assoc, List.take_append_drop] at hblock
    rw [List.append_assoc, List.append_assoc]
    exact hblock

theorem isFrame_compress (bs : Bytes) : isFrame (compress bs) = true := by
  simp [isFrame, compress, magic, List.isPrefixOf]

theorem readFrames?_of_last {total bound : Nat} {read bs rest content : Bytes} (hbound : bound ≠ 0)
    (hafter : Bytes.after? magic bs = some rest) (hframe : readFrame? total rest = some (content, [])) :
    readFrames? total read bound bs = some (read ++ content) := by
  obtain ⟨bound, rfl⟩ := Nat.exists_eq_succ_of_ne_zero hbound
  cases bs with
  | nil => cases hafter
  | cons b bs =>
    rw [readFrames?, hafter]
    · simp only [hframe]
      rw [readFrames?]
    · simp

/-- **Reading a frame undoes writing it.** -/
theorem decompress?_compress (bs : Bytes) : decompress? (compress bs) = some bs := by
  have hlen : (compress bs).length = (blocks bs).length + 6 := by
    simp [compress, magic]
  have hblocks := readBlocks?_blocks (windowSize 0x38) (by decide) bs [] [] (compress bs).length
    (by omega)
  rw [List.append_nil, List.nil_append] at hblocks
  have hframe : readFrame? (compress bs).length (0x00 :: 0x38 :: blocks bs) = some (bs, []) := by
    have hdescriptor : take? 1 (0x00 :: 0x38 :: blocks bs) = some ([0x00], 0x38 :: blocks bs) := rfl
    have hwindow : take? 1 (0x38 :: blocks bs) = some ([0x38], blocks bs) := rfl
    have hsize : take? 0 (blocks bs) = some ([], blocks bs) := rfl
    have hzero : ofLittleEndian [0x00] = 0 := rfl
    simp [readFrame?, hdescriptor, hwindow, hsize, hzero, hblocks]
  have hafter : Bytes.after? magic (compress bs) = some (0x00 :: 0x38 :: blocks bs) := by
    simp [Bytes.after?, compress, magic, List.isPrefixOf]
  exact readFrames?_of_last (by omega) hafter hframe

end Raw

/-- Frames of raw blocks. -/
def raw : Compression :=
  ⟨Raw.compress, Raw.decompress?, Raw.isFrame_compress, Raw.decompress?_compress⟩

end Fixity.Frame
