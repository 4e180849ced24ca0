import WasmDbms.Memory.Access

/-!
# The memory manager

`MemoryManager` over a flat provider. Every write is checked against the
allocated pages and the page end first, so that a successful call overwrites
one region of one page and a failed call changes nothing.
-/
namespace WasmDbms
open ByteString

/-- A manager over `HeapMemoryProvider`: a flat byte vector of `pages` whole
pages. The host grants at most `capacity` pages, and page numbers are `u32`. -/
structure MemoryManager where
  pages : Nat
  capacity : Nat
  mem : Nat → UInt8
  pages_le : pages ≤ capacity
  capacity_lt : capacity < 4294967296

namespace MemoryManager

/-- A capacity of eight pages is one. -/
theorem eight_capacity : 8 < 4294967296 := by decide

/-- `absolute_offset`. -/
def absoluteOffset (page : Nat) (offset : Nat) : Nat := pageSize * page + offset

/-- The byte at an offset of a page. -/
def byteAt (m : MemoryManager) (page : Nat) (offset : Nat) : UInt8 :=
  m.mem (absoluteOffset page offset)

/-- `last_page`. -/
def lastPage (m : MemoryManager) : Option Nat :=
  if m.pages = 0 then none else some (m.pages - 1)

/-- The guard `last_page().is_none_or(|last_page| page > last_page)`. -/
def unallocated (m : MemoryManager) (page : Nat) : Bool :=
  match m.lastPage with
  | none => true
  | some last => decide (last < page)

@[simp] theorem unallocated_iff (m : MemoryManager) (page : Nat) :
    m.unallocated page = true ↔ m.pages ≤ page := by
  by_cases h : m.pages = 0
  · simp [unallocated, lastPage, h]
  · simp only [unallocated, lastPage, if_neg h, decide_eq_true_eq]
    omega

@[simp] theorem unallocated_false_iff (m : MemoryManager) (page : Nat) :
    m.unallocated page = false ↔ page < m.pages := by
  rw [← Bool.not_eq_true, unallocated_iff, Nat.not_le]

/-- `provider.write`. -/
def providerWrite (m : MemoryManager) (offset : Nat) (buf : List UInt8) :
    Except MemoryError Unit × MemoryManager :=
  if offset + buf.length ≤ pageSize * m.pages then
    (.ok (), { m with mem := store m.mem offset buf })
  else (.error .outOfBounds, m)

/-- `provider.read` of `len` bytes. -/
def providerRead (m : MemoryManager) (offset len : Nat) : Except MemoryError (List UInt8) :=
  if offset + len ≤ pageSize * m.pages then .ok (load m.mem offset len) else .error .outOfBounds

/-- One more page; new bytes are zero. -/
def enlarged (m : MemoryManager) (h : m.pages + 1 ≤ m.capacity) : MemoryManager :=
  { m with
    pages := m.pages + 1
    mem := fun i => if i < pageSize * m.pages then m.mem i else 0
    pages_le := h }

/-- `provider.grow(1)`. -/
def providerGrow (m : MemoryManager) : Except MemoryError Unit × MemoryManager :=
  if h : m.pages + 1 ≤ m.capacity then (.ok (), m.enlarged h)
  else (.error .failedToAllocatePage, m)

def zeros (n : Nat) : List UInt8 := List.replicate n 0

@[simp] theorem zeros_length (n : Nat) : (zeros n).length = n := List.length_replicate

/-- `?` on a call that changes the manager. -/
def andThen {α β : Type} (r : Except MemoryError α × MemoryManager)
    (k : α → MemoryManager → Except MemoryError β × MemoryManager) :
    Except MemoryError β × MemoryManager :=
  match r with
  | (.ok a, m) => k a m
  | (.error e, m) => (.error e, m)

@[simp] theorem andThen_ok {α β : Type} (a : α) (m : MemoryManager)
    (k : α → MemoryManager → Except MemoryError β × MemoryManager) :
    andThen (.ok a, m) k = k a m := rfl

@[simp] theorem andThen_error {α β : Type} (e : MemoryError) (m : MemoryManager)
    (k : α → MemoryManager → Except MemoryError β × MemoryManager) :
    andThen (.error e, m) k = (.error e, m) := rfl

def growOnePage (m : MemoryManager) : Except MemoryError Nat × MemoryManager :=
  andThen m.providerGrow fun _ m =>
  andThen (m.providerWrite (absoluteOffset (m.lastPage.getD 0) 0) (zeros pageSize)) fun _ m =>
  match m.lastPage with
  | some page => (.ok page, m)
  | none => (.error .failedToAllocatePage, m)

def zeroPage (m : MemoryManager) (page : Nat) : Except MemoryError Unit × MemoryManager :=
  if m.unallocated page then (.error (.segmentationFault page 0 pageSize pageSize), m)
  else m.providerWrite (absoluteOffset page 0) (zeros pageSize)

/-- The number of bytes `read_at_raw` reads reaches at most to the page end. -/
def readAtRaw (m : MemoryManager) (page : Nat) (offset : Nat) (len : Nat) :
    Except MemoryError (List UInt8) :=
  if m.unallocated page then .error (.segmentationFault page offset len pageSize)
  else m.providerRead (absoluteOffset page offset) (min (pageSize - offset) len)

/-- `read_at` up to the call of `decode`. -/
def readAt (m : MemoryManager) (page : Nat) (offset : Nat) (alignment : Nat)
    (size : DataSize) : Except MemoryError (List UInt8) :=
  if alignment ≠ 0 ∧ offset % alignment ≠ 0 then .error (.offsetNotAligned offset alignment)
  else
    let len := match size with
      | .fixed size => size
      | .dynamic => pageSize - offset
    match m.readAtRaw page offset len with
    | .error e => .error e
    | .ok buf =>
        if buf.length < len then .error (.segmentationFault page offset len pageSize) else .ok buf

def writeAt (m : MemoryManager) (page : Nat) (offset : Nat) (data : Encoded) :
    Except MemoryError Unit × MemoryManager :=
  if m.unallocated page then (.error (.segmentationFault page offset data.size pageSize), m)
  else if data.alignment ≠ 0 ∧ offset % data.alignment ≠ 0 then
    (.error (.offsetNotAligned offset data.alignment), m)
  else
    let paddedLen := alignUp data.alignment data.bytes.length
    if pageSize < offset + paddedLen then
      (.error (.segmentationFault page offset paddedLen pageSize), m)
    else
      andThen (m.providerWrite (absoluteOffset page offset) data.bytes) fun _ m =>
      let padding := paddedLen - data.bytes.length
      if 0 < padding then
        m.providerWrite (absoluteOffset page offset + data.bytes.length) (zeros padding)
      else (.ok (), m)

def writeAtRaw (m : MemoryManager) (page : Nat) (offset : Nat) (buf : List UInt8) :
    Except MemoryError Unit × MemoryManager :=
  if m.unallocated page then
    (.error (.segmentationFault page offset (buf.length % (msizeMax + 1)) pageSize), m)
  else if pageSize < offset + buf.length then
    (.error (.segmentationFault page offset buf.length pageSize), m)
  else m.providerWrite (absoluteOffset page offset) buf

def zero (m : MemoryManager) (page : Nat) (offset : Nat) (data : Encoded) :
    Except MemoryError Unit × MemoryManager :=
  if m.unallocated page then (.error (.segmentationFault page offset data.size pageSize), m)
  else if data.alignment ≠ 0 ∧ offset % data.alignment ≠ 0 then
    (.error (.offsetNotAligned offset data.alignment), m)
  else
    let length := alignUp data.alignment data.size
    if pageSize < offset + length then
      (.error (.segmentationFault page offset data.size pageSize), m)
    else m.providerWrite (absoluteOffset page offset) (zeros length)

def zeroRaw (m : MemoryManager) (page : Nat) (offset : Nat) (len : Nat) :
    Except MemoryError Unit × MemoryManager :=
  if m.unallocated page then (.error (.segmentationFault page offset len pageSize), m)
  else if pageSize < offset + len then (.error (.segmentationFault page offset len pageSize), m)
  else m.providerWrite (absoluteOffset page offset) (zeros len)

/-- `impl MemoryAccess for MemoryManager`. -/
def exec : Prog.Handler MemoryManager
  | .growOnePage, m => m.growOnePage
  | .zeroPage page, m => m.zeroPage page
  | .readAt page offset alignment size, m => (m.readAt page offset alignment size, m)
  | .writeAt page offset data, m => m.writeAt page offset data
  | .writeAtRaw page offset buf, m => m.writeAtRaw page offset buf
  | .zero page offset data, m => m.zero page offset data
  | .zeroRaw page offset len, m => m.zeroRaw page offset len
  | .readAtRaw page offset len, m => (m.readAtRaw page offset len, m)

/-- The manager with the bytes from an offset of a page on overwritten. -/
def writeBytes (m : MemoryManager) (page offset : Nat) (bs : List UInt8) : MemoryManager :=
  { m with mem := store m.mem (absoluteOffset page offset) bs }

@[simp] theorem writeBytes_pages (m : MemoryManager) (page offset : Nat) (bs : List UInt8) :
    (m.writeBytes page offset bs).pages = m.pages := rfl

@[simp] theorem writeBytes_mem (m : MemoryManager) (page offset : Nat) (bs : List UInt8) :
    (m.writeBytes page offset bs).mem = store m.mem (absoluteOffset page offset) bs := rfl

@[simp] theorem writeBytes_nil (m : MemoryManager) (page offset : Nat) :
    m.writeBytes page offset [] = m := by
  unfold writeBytes
  rw [store_nil]

theorem writeBytes_append (m : MemoryManager) (page offset : Nat) (xs ys : List UInt8) :
    m.writeBytes page offset (xs ++ ys) =
      (m.writeBytes page offset xs).writeBytes page (offset + xs.length) ys := by
  unfold writeBytes absoluteOffset
  rw [store_append, Nat.add_assoc]

/-- A write over one of the same length. -/
theorem writeBytes_over {m : MemoryManager} {page offset : Nat} {xs ys : List UInt8}
    (same : xs.length = ys.length) :
    (m.writeBytes page offset xs).writeBytes page offset ys = m.writeBytes page offset ys := by
  unfold writeBytes
  rw [store_store same]

theorem providerWrite_inPage {m : MemoryManager} {page : Nat} {offset : Nat}
    {bs : List UInt8} (alloc : page < m.pages) (fits : offset + bs.length ≤ pageSize) :
    m.providerWrite (absoluteOffset page offset) bs = (.ok (), m.writeBytes page offset bs) := by
  have bound : absoluteOffset page offset + bs.length ≤ pageSize * m.pages := by
    have step := Nat.mul_le_mul_left pageSize (Nat.succ_le_of_lt alloc)
    unfold absoluteOffset
    rw [Nat.mul_succ] at step
    omega
  unfold providerWrite
  rw [if_pos bound]
  rfl

theorem providerRead_inPage {m : MemoryManager} {page : Nat} {offset : Nat} {len : Nat}
    (alloc : page < m.pages) (fits : offset + len ≤ pageSize) :
    m.providerRead (absoluteOffset page offset) len =
      .ok (load m.mem (absoluteOffset page offset) len) := by
  have bound : absoluteOffset page offset + len ≤ pageSize * m.pages := by
    have step := Nat.mul_le_mul_left pageSize (Nat.succ_le_of_lt alloc)
    unfold absoluteOffset
    rw [Nat.mul_succ] at step
    omega
  unfold providerRead
  rw [if_pos bound]

/-- A raw read returns the bytes up to the requested length or the page end. -/
theorem readAtRaw_allocated {m : MemoryManager} {page offset : Nat} (len : Nat)
    (alloc : page < m.pages) (inside : offset ≤ pageSize) :
    m.readAtRaw page offset len =
      .ok (load m.mem (absoluteOffset page offset) (min (pageSize - offset) len)) := by
  unfold readAtRaw
  rw [if_neg (by simpa using alloc), providerRead_inPage alloc (by omega)]

theorem lastPage_succ {m : MemoryManager} {n : Nat} (h : m.pages = n + 1) :
    m.lastPage = some n := by
  simp [lastPage, h]

/-- The explicit zeroing finds the new page zero already. -/
theorem enlarged_zeroed (m : MemoryManager) (h : m.pages + 1 ≤ m.capacity) :
    (m.enlarged h).writeBytes m.pages 0 (zeros pageSize) = m.enlarged h := by
  have same : store (m.enlarged h).mem (absoluteOffset m.pages 0) (zeros pageSize) =
      (m.enlarged h).mem := by
    funext i
    by_cases inside : absoluteOffset m.pages 0 ≤ i ∧ i < absoluteOffset m.pages 0 + pageSize
    · rw [store_of_inside _ _ _ inside.1 (by rw [zeros_length]; exact inside.2)]
      unfold absoluteOffset at inside
      have outside : ¬ i < pageSize * m.pages := by omega
      simp [enlarged, outside, zeros, show i - absoluteOffset m.pages 0 < pageSize by
        unfold absoluteOffset; omega]
    · exact store_of_outside _ _ _ (by rw [zeros_length]; omega)
  unfold writeBytes
  rw [same]

theorem growOnePage_eq (m : MemoryManager) :
    m.growOnePage =
      if h : m.pages + 1 ≤ m.capacity then (.ok m.pages, m.enlarged h)
      else (.error .failedToAllocatePage, m) := by
  unfold growOnePage providerGrow
  by_cases room : m.pages + 1 ≤ m.capacity
  · have last : (m.enlarged room).lastPage = some m.pages := lastPage_succ rfl
    have alloc : m.pages < (m.enlarged room).pages := Nat.lt_succ_self m.pages
    have write := providerWrite_inPage alloc (show 0 + (zeros pageSize).length ≤ pageSize by
      rw [zeros_length]; omega)
    rw [enlarged_zeroed] at write
    rw [dif_pos room, dif_pos room, andThen_ok, last, Option.getD_some, write, andThen_ok, last]
  · rw [dif_neg room, dif_neg room, andThen_error]

theorem zeroPage_eq (m : MemoryManager) (page : Nat) :
    m.zeroPage page =
      if page < m.pages then (.ok (), m.writeBytes page 0 (zeros pageSize))
      else (.error (.segmentationFault page 0 pageSize pageSize), m) := by
  unfold zeroPage
  by_cases alloc : page < m.pages
  · rw [if_pos alloc, if_neg (by simpa using alloc), providerWrite_inPage alloc (by simp)]
  · rw [if_neg alloc, if_pos (by simpa using Nat.le_of_not_lt alloc)]

/-- The bytes a successful `write_at` leaves in the page: the encoding and its padding. -/
def padded (data : Encoded) : List UInt8 :=
  data.bytes ++ zeros (alignUp data.alignment data.bytes.length - data.bytes.length)

@[simp] theorem padded_length (data : Encoded) :
    (padded data).length = alignUp data.alignment data.bytes.length := by
  have grow := alignUp_ge data.bytes.length data.alignment_pos
  simp only [padded, List.length_append, zeros_length]
  omega

theorem writeAt_eq (m : MemoryManager) (page offset : Nat) (data : Encoded) :
    m.writeAt page offset data =
      if m.unallocated page then (.error (.segmentationFault page offset data.size pageSize), m)
      else if data.alignment ≠ 0 ∧ offset % data.alignment ≠ 0 then
        (.error (.offsetNotAligned offset data.alignment), m)
      else if pageSize < offset + (padded data).length then
        (.error (.segmentationFault page offset (padded data).length pageSize), m)
      else (.ok (), m.writeBytes page offset (padded data)) := by
  have grow := alignUp_ge data.bytes.length data.alignment_pos
  unfold writeAt
  dsimp only
  rw [padded_length]
  split
  · rfl
  · split
    · rfl
    · split
      · rfl
      · rename_i alloc _ fits
        have alloc : page < m.pages := by simpa using alloc
        rw [providerWrite_inPage alloc (by omega), andThen_ok, padded, writeBytes_append]
        split
        · have shift : absoluteOffset page offset + data.bytes.length =
              absoluteOffset page (offset + data.bytes.length) := by
            unfold absoluteOffset
            omega
          rw [shift]
          exact providerWrite_inPage alloc (by rw [zeros_length]; omega)
        · rename_i full
          rw [Nat.eq_zero_of_not_pos full]
          simp [zeros]

theorem writeAtRaw_eq (m : MemoryManager) (page offset : Nat) (buf : List UInt8) :
    m.writeAtRaw page offset buf =
      if m.unallocated page then
        (.error (.segmentationFault page offset (buf.length % (msizeMax + 1)) pageSize), m)
      else if pageSize < offset + buf.length then
        (.error (.segmentationFault page offset buf.length pageSize), m)
      else (.ok (), m.writeBytes page offset buf) := by
  unfold writeAtRaw
  split
  · rfl
  · split
    · rfl
    · rename_i alloc fits
      exact providerWrite_inPage (by simpa using alloc) (by omega)

theorem zero_eq (m : MemoryManager) (page offset : Nat) (data : Encoded) :
    m.zero page offset data =
      if m.unallocated page then (.error (.segmentationFault page offset data.size pageSize), m)
      else if data.alignment ≠ 0 ∧ offset % data.alignment ≠ 0 then
        (.error (.offsetNotAligned offset data.alignment), m)
      else if pageSize < offset + alignUp data.alignment data.size then
        (.error (.segmentationFault page offset data.size pageSize), m)
      else (.ok (), m.writeBytes page offset (zeros (alignUp data.alignment data.size))) := by
  unfold zero
  dsimp only
  split
  · rfl
  · split
    · rfl
    · split
      · rfl
      · rename_i alloc _ fits
        exact providerWrite_inPage (by simpa using alloc) (by rw [zeros_length]; omega)

theorem zeroRaw_eq (m : MemoryManager) (page offset len : Nat) :
    m.zeroRaw page offset len =
      if m.unallocated page then (.error (.segmentationFault page offset len pageSize), m)
      else if pageSize < offset + len then
        (.error (.segmentationFault page offset len pageSize), m)
      else (.ok (), m.writeBytes page offset (zeros len)) := by
  unfold zeroRaw
  split
  · rfl
  · split
    · rfl
    · rename_i alloc fits
      exact providerWrite_inPage (by simpa using alloc) (by rw [zeros_length]; omega)

/-- The page, the offset and the bytes of the region a successful call overwrites. -/
def written : MemCall → Option (Nat × Nat × List UInt8)
  | .zeroPage page => some (page, 0, zeros pageSize)
  | .writeAt page offset data => some (page, offset, padded data)
  | .writeAtRaw page offset buf => some (page, offset, buf)
  | .zero page offset data => some (page, offset, zeros (alignUp data.alignment data.size))
  | .zeroRaw page offset len => some (page, offset, zeros len)
  | .growOnePage | .readAt .. | .readAtRaw .. => none

end MemoryManager

end WasmDbms
