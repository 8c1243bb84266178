import Mathlib.Tactic
import StorageDb.Lib.Bytes

namespace StorageDb
open Bytes

abbrev PageId := UInt32

def pageSize : Nat := 4096
def headerSize : Nat := 16
def invalidPageId : PageId := 0xFFFFFFFF

@[simp] theorem pageSize_eq : pageSize = 4096 := rfl
@[simp] theorem headerSize_eq : headerSize = 16 := rfl

inductive PageType where
  | invalid
  | metaPage
  | internal
  | leaf
  | overflow
  | freeList
  deriving DecidableEq, Repr

def PageType.toByte : PageType → Nat
  | .invalid => 0
  | .metaPage => 1
  | .internal => 2
  | .leaf => 3
  | .overflow => 4
  | .freeList => 5

def PageType.ofByte : Nat → PageType
  | 1 => .metaPage
  | 2 => .internal
  | 3 => .leaf
  | 4 => .overflow
  | 5 => .freeList
  | _ => .invalid

def crcShift (crc : UInt32) : UInt32 :=
  if crc &&& 1 ≠ 0 then (crc >>> 1) ^^^ 0xEDB88320 else crc >>> 1

def crcShifts : Nat → UInt32 → UInt32
  | 0, crc => crc
  | n + 1, crc => crcShifts n (crcShift crc)

-- CRC32_TABLES: an entry is a function of its index, the last byte of the argument.
def crcTable0 (i : UInt32) : UInt32 := crcShifts 8 i
def crcTable1 (i : UInt32) : UInt32 := (crcTable0 i >>> 8) ^^^ crcTable0 (crcTable0 i &&& 0xFF)
def crcTable2 (i : UInt32) : UInt32 := (crcTable1 i >>> 8) ^^^ crcTable0 (crcTable1 i &&& 0xFF)
def crcTable3 (i : UInt32) : UInt32 := (crcTable2 i >>> 8) ^^^ crcTable0 (crcTable2 i &&& 0xFF)

def crcTail : UInt32 → Bytes → UInt32
  | crc, [] => crc
  | crc, b :: bs => crcTail ((crc >>> 8) ^^^ crcTable0 ((crc ^^^ b.toUInt32) &&& 0xFF)) bs

def crcChunks : UInt32 → Bytes → UInt32
  | crc, a :: b :: c :: d :: rest =>
    let w := crc ^^^ UInt32.ofNat (leNat [a,b,c,d])
    crcChunks (crcTable3 (w &&& 0xFF) ^^^ crcTable2 ((w >>> 8) &&& 0xFF) ^^^
      crcTable1 ((w >>> 16) &&& 0xFF) ^^^ crcTable0 ((w >>> 24) &&& 0xFF)) rest
  | crc, rest => crcTail crc rest

def crc32 (data : Bytes) : UInt32 := crcChunks 0xFFFFFFFF data ^^^ 0xFFFFFFFF

structure Page where
  id : PageId
  data : Bytes
  size : data.length = pageSize

namespace Page

@[ext] theorem ext {p q : Page} (hi : p.id = q.id) (hd : p.data = q.data) : p = q := by
  cases p; cases q; cases hi; cases hd; rfl

@[simp] theorem length_data (p : Page) : p.data.length = 4096 := p.size

instance : DecidableEq Page := fun p q =>
  if h : p.id = q.id ∧ p.data = q.data then .isTrue (ext h.1 h.2)
  else .isFalse (fun e => h ⟨congrArg id e,congrArg data e⟩)

def patch (p : Page) (off : Nat) (src : Bytes) (h : off + src.length ≤ pageSize) : Page where
  id := p.id
  data := splice p.data off src
  size := by rw [length_splice (by rw [p.size]; exact h),p.size]

-- Slice reads and writes of the source panic out of range.
def read (p : Page) (off len : Nat) : Option Bytes :=
  if off + len ≤ pageSize then some (slice p.data off len) else none

def write (p : Page) (off : Nat) (src : Bytes) : Option Page :=
  if h : off + src.length ≤ pageSize then some (p.patch off src h) else none

def field (p : Page) (off len : Nat) : Nat := leNat (slice p.data off len)

def setField (p : Page) (off len : Nat) (v : Nat) (h : off + len ≤ pageSize) : Page :=
  p.patch off (leBytes len v) (by simpa using h)

def getPageId (p : Page) : PageId := UInt32.ofNat (p.field 0 4)
def setPageId (p : Page) (id : PageId) : Page := p.setField 0 4 id.toNat (by decide)
def getPageType (p : Page) : PageType := .ofByte (p.field 4 1)
def setPageType (p : Page) (t : PageType) : Page := p.setField 4 1 t.toByte (by decide)
def getNumSlots (p : Page) : Nat := p.field 5 2
def setNumSlots (p : Page) (n : Nat) : Page := p.setField 5 2 n (by decide)
def setFreeOffset (p : Page) (n : Nat) : Page := p.setField 7 2 n (by decide)
def getChecksum (p : Page) : UInt32 := UInt32.ofNat (p.field 9 4)
def setChecksum (p : Page) (c : UInt32) : Page := p.setField 9 4 c.toNat (by decide)
def computeChecksum (p : Page) : UInt32 := crc32 (p.data.drop headerSize)
def updateChecksum (p : Page) : Page := p.setChecksum p.computeChecksum
def verifyChecksum (p : Page) : Bool := p.getChecksum == p.computeChecksum

def zero (id : PageId) : Page := ⟨id,List.replicate pageSize 0,List.length_replicate⟩

def new (id : PageId) : Page :=
  ((((zero id).setPageId id).setPageType .invalid).setNumSlots 0).setFreeOffset headerSize

def fromBytes (id : PageId) (bytes : Bytes) (h : bytes.length = pageSize) : Page := ⟨id,bytes,h⟩

@[simp] theorem data_patch (p : Page) (off : Nat) (src : Bytes) (h) :
    (p.patch off src h).data = splice p.data off src := rfl

theorem slice_patch_disjoint (p : Page) {off off' len : Nat} {src : Bytes}
    (h : off + src.length ≤ pageSize) (hd : off' + len ≤ off ∨ off + src.length ≤ off') :
    slice (p.patch off src h).data off' len = slice p.data off' len :=
  slice_splice_disjoint (by rw [p.size]; exact h) hd

theorem slice_setField_disjoint (p : Page) {off len off' len' v : Nat} (h : off + len ≤ pageSize)
    (hd : off' + len' ≤ off ∨ off + len ≤ off') :
    slice (p.setField off len v h).data off' len' = slice p.data off' len' :=
  slice_patch_disjoint p (by simpa using h) (by simpa using hd)

theorem field_setField_same (p : Page) {off len v : Nat} (h : off + len ≤ pageSize) :
    (p.setField off len v h).field off len = v % 256 ^ len := by
  have hs : slice (splice p.data off (leBytes len v)) off (leBytes len v).length = leBytes len v :=
    slice_splice_same (by rw [p.size]; simpa using h)
  rw [length_leBytes] at hs
  rw [field,setField,data_patch,hs,leNat_leBytes]

theorem field_setField_disjoint (p : Page) {off len off' len' v : Nat} (h : off + len ≤ pageSize)
    (hd : off' + len' ≤ off ∨ off + len ≤ off') :
    (p.setField off len v h).field off' len' = p.field off' len' := by
  rw [field,field,slice_setField_disjoint p h hd]

theorem field_lt (p : Page) {off len : Nat} (h : off + len ≤ pageSize) :
    p.field off len < 256 ^ len := by
  have hl : (slice p.data off len).length = len := length_slice (by rw [p.size]; exact h)
  have := leNat_lt (slice p.data off len)
  rwa [hl] at this

theorem write_eq_some (p : Page) {off : Nat} {src : Bytes} (h : off + src.length ≤ pageSize) :
    p.write off src = some (p.patch off src h) := dif_pos h

theorem read_eq_some (p : Page) {off len : Nat} (h : off + len ≤ pageSize) :
    p.read off len = some (slice p.data off len) := if_pos h

end Page

end StorageDb
