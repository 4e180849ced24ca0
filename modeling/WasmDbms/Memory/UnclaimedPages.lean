import WasmDbms.Memory.Manager

/-!
# Claiming and releasing pages

The unclaimed-pages ledger is a stack of page numbers on a reserved page.
`claim_page` and `unclaim_page` are default methods of `MemoryAccess`: they
are programs over its primitive calls and run on every implementation.
-/
namespace WasmDbms
open ByteString

/-- `DEFAULT_ALIGNMENT`, the alignment of every ledger. -/
def defaultAlignment : Nat := 32

theorem defaultAlignment_pos : 0 < defaultAlignment := by decide

/-- `UNCLAIMED_PAGES_CAPACITY`. -/
def unclaimedPagesCapacity : Nat := (msizeMax - 4) / 4

theorem unclaimedPagesCapacity_eq : unclaimedPagesCapacity = 16382 := rfl

/-- The ledger: a stack of pages, the last one on top, that fits its page. -/
structure UnclaimedPages where
  pages : List Nat
  bounded : pages.length ≤ unclaimedPagesCapacity
  deriving DecidableEq, Repr

namespace UnclaimedPages

/-- `UNCLAIMED_PAGES_PAGE`. -/
def reservedPage : Nat := 1

def encode (u : UnclaimedPages) : List UInt8 :=
  toLE 4 u.pages.length ++ u.pages.flatMap (toLE 4)

def decode (data : List UInt8) : Except Fault UnclaimedPages :=
  if data.length < 4 then .error (.error (.decodeError .tooShort))
  else if h : unclaimedPagesCapacity < ofLE (data.take 4) then
    .error (.error (.unclaimedPagesFull unclaimedPagesCapacity))
  else if data.length < 4 + ofLE (data.take 4) * 4 then .error (.error (.decodeError .tooShort))
  else .ok ⟨(chunks 4 (ofLE (data.take 4)) (data.drop 4)).map ofLE, by simpa using h⟩

theorem bounded_dropLast (u : UnclaimedPages) : u.pages.dropLast.length ≤ unclaimedPagesCapacity := by
  have bounded := u.bounded
  rw [List.length_dropLast]
  omega

def pop (u : UnclaimedPages) : Option (Nat × UnclaimedPages) :=
  match u.pages.getLast? with
  | none => none
  | some page => some (page, ⟨u.pages.dropLast, u.bounded_dropLast⟩)

def push (u : UnclaimedPages) (page : Nat) : Except Fault UnclaimedPages :=
  if h : unclaimedPagesCapacity ≤ u.pages.length then
    .error (.error (.unclaimedPagesFull unclaimedPagesCapacity))
  else .ok ⟨u.pages ++ [page], by simp; omega⟩

@[simp] theorem encode_length (u : UnclaimedPages) : u.encode.length = 4 + 4 * u.pages.length := by
  simp [encode, flatMap_length (toLE_length 4)]

theorem encode_fits (u : UnclaimedPages) : 4 + 4 * u.pages.length ≤ 65532 := by
  have bounded := u.bounded
  rw [unclaimedPagesCapacity_eq] at bounded
  omega

/-- What `write_at` uses of a ledger. -/
def encoded (u : UnclaimedPages) : Encoded where
  alignment := defaultAlignment
  size := 4 + u.pages.length * 4
  bytes := u.encode
  alignment_pos := defaultAlignment_pos
  size_le := by
    have fits := u.encode_fits
    unfold msizeMax
    omega
  size_eq := by
    intro _ _
    rw [encode_length]
    omega
  saturated := by
    intro _ _
    decide

theorem pop_some {u rest : UnclaimedPages} {page : Nat} (top : u.pop = some (page, rest)) :
    u.pages = rest.pages ++ [page] := by
  unfold pop at top
  split at top
  · cases top
  · rename_i last found
    cases top
    obtain ⟨ys, split⟩ := List.getLast?_eq_some_iff.mp found
    simp [split]

theorem pop_none {u : UnclaimedPages} (empty : u.pop = none) : u.pages = [] := by
  unfold pop at empty
  split at empty
  · rename_i found
    exact List.getLast?_eq_none_iff.mp found
  · cases empty

theorem decode_encode (u : UnclaimedPages) (rest : List UInt8)
    (wide : ∀ page ∈ u.pages, page < 4294967296) : decode (u.encode ++ rest) = .ok u := by
  have bounded := u.bounded
  have fits := u.encode_fits
  have count : ofLE ((u.encode ++ rest).take 4) = u.pages.length := by
    rw [encode, List.append_assoc, List.take_left' (toLE_length _ _)]
    exact ofLE_toLE_of_lt (by omega)
  have body : (chunks 4 u.pages.length ((u.encode ++ rest).drop 4)).map ofLE = u.pages := by
    rw [encode, List.append_assoc, List.drop_left' (toLE_length _ _)]
    exact map_chunks_flatMap (toLE_length 4) (fun page member => ofLE_toLE_of_lt (wide page member)) rest
  have long : 4 + 4 * u.pages.length ≤ (u.encode ++ rest).length := by
    rw [List.length_append, encode_length]
    omega
  unfold decode
  rw [if_neg (by omega), dif_neg (by omega), if_neg (by omega)]
  simp only [count, body]

end UnclaimedPages

namespace MemoryAccess

def claimPage : Prog Nat := do
  let data ← readAt UnclaimedPages.reservedPage 0 defaultAlignment .dynamic
  let ledger ← Prog.lift (UnclaimedPages.decode data)
  match ledger.pop with
  | some (page, ledger) => do
      writeAt UnclaimedPages.reservedPage 0 ledger.encoded
      return page
  | none => growOnePage

def unclaimPage (page : Nat) : Prog Unit := do
  zeroPage page
  let data ← readAt UnclaimedPages.reservedPage 0 defaultAlignment .dynamic
  let ledger ← Prog.lift (UnclaimedPages.decode data)
  let ledger ← Prog.lift (ledger.push page)
  writeAt UnclaimedPages.reservedPage 0 ledger.encoded

end MemoryAccess

end WasmDbms
