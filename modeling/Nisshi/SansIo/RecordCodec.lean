import Nisshi.Lib.Traverse
import Nisshi.Lib.Varint
import Nisshi.SansIo.Inflated
import Mathlib.Algebra.Order.BigOperators.Group.List

/-! The wire format of a record: its length, then attributes, timestamp and offset deltas, key, value and
headers. Lengths and deltas are zigzag varints, and a null key or value has the length `-1`. -/

namespace Nisshi.SansIo

open Nisshi.Lib Nisshi.Lib.Bytes List Option

namespace VarInt

def encode (value : Int32) : List UInt8 :=
  putZigzag value.toBitVec

def sizeInBytes (value : Int32) : Nat :=
  zigzagSize value.toBitVec

def decode : Reader Int32 :=
  Int32.ofBitVec <$> getZigzag 32

/-- `TryFrom<usize>`. -/
def tryFrom (value : Nat) : Option Int32 :=
  if value < 2 ^ 31 then some (Int32.ofNat value) else none

theorem lt_of_tryFrom {value : Nat} (fits : tryFrom value = some converted) : value < 2 ^ 31 := by
  by_contra large
  rw [tryFrom, if_neg large] at fits
  cases fits

theorem length_encode (value : Int32) : (encode value).length = sizeInBytes value :=
  length_putZigzag _

theorem sizeInBytes_pos (value : Int32) : 0 < sizeInBytes value :=
  zigzagSize_pos _

theorem sizeInBytes_le (value : Int32) : sizeInBytes value ≤ 5 := by
  have small : (enZigzag value.toBitVec).toNat ≤ 2 ^ 32 := Nat.le_of_lt (enZigzag value.toBitVec).isLt
  calc varintSize (enZigzag value.toBitVec).toNat
    _ ≤ varintSize (2 ^ 32) := varintSize_mono small
    _ = 5 := by simp [varintSize]

theorem varintSize_le_sizeInBytes (small : value < 2 ^ 31) : varintSize value ≤ sizeInBytes (Int32.ofNat value) := by
  have bits : (Int32.ofNat value).toBitVec.toNat = value := by
    rw [Int32.toBitVec_ofNat', BitVec.toNat_ofNat]
    omega
  rw [sizeInBytes, zigzagSize, toNat_enZigzag (by omega)]
  exact varintSize_mono (by omega)

theorem reads_decode (value : Int32) : Reads decode (encode value) value :=
  (reads_getZigzag (by decide) value.toBitVec).map Int32.ofBitVec

end VarInt

namespace LongVarInt

def encode (value : Int64) : List UInt8 :=
  putZigzag value.toBitVec

def sizeInBytes (value : Int64) : Nat :=
  zigzagSize value.toBitVec

def decode : Reader Int64 :=
  Int64.ofBitVec <$> getZigzag 64

theorem length_encode (value : Int64) : (encode value).length = sizeInBytes value :=
  length_putZigzag _

theorem sizeInBytes_pos (value : Int64) : 0 < sizeInBytes value :=
  zigzagSize_pos _

theorem reads_decode (value : Int64) : Reads decode (encode value) value :=
  (reads_getZigzag (by decide) value.toBitVec).map Int64.ofBitVec

end LongVarInt

abbrev Octets := Option (List UInt8)

namespace Octets

def sizeInBytes : Octets → Option Nat
  | none => some (VarInt.sizeInBytes (-1))
  | some bytes => (VarInt.tryFrom bytes.length).map fun length => VarInt.sizeInBytes length + bytes.length

def encode : Octets → Option (List UInt8)
  | none => some (VarInt.encode (-1))
  | some bytes => (VarInt.tryFrom bytes.length).map fun length => VarInt.encode length ++ bytes

def decode : Reader Octets := do
  let length ← VarInt.decode
  if length = -1 then pure none
  else if length.toInt < 0 then failure
  else some <$> slice length.toInt.toNat

def Fits (octets : Octets) : Prop :=
  ∀ bytes, octets = some bytes → bytes.length < 2 ^ 31

def size : Octets → Nat
  | none => VarInt.sizeInBytes (-1)
  | some bytes => VarInt.sizeInBytes (Int32.ofNat bytes.length) + bytes.length

def bytes : Octets → List UInt8
  | none => VarInt.encode (-1)
  | some bytes => VarInt.encode (Int32.ofNat bytes.length) ++ bytes

variable {octets : Octets}

theorem length_bytes (octets : Octets) : (bytes octets).length = size octets := by
  cases octets with
  | none => exact VarInt.length_encode _
  | some => rw [bytes, size, length_append, VarInt.length_encode]

theorem length_lt_size : data.length < size (some data) := by
  have := VarInt.sizeInBytes_pos (Int32.ofNat data.length)
  simp only [size]
  omega

theorem size_pos (octets : Octets) : 0 < size octets := by
  cases octets with
  | none => exact VarInt.sizeInBytes_pos _
  | some => exact Nat.lt_of_le_of_lt (Nat.zero_le _) length_lt_size

theorem fits_of_size (small : size octets < 2 ^ 31) : octets.Fits := by
  rintro _ rfl
  exact Nat.lt_trans length_lt_size small

theorem sizeInBytes_eq (fits : octets.Fits) : sizeInBytes octets = some (size octets) := by
  cases octets with
  | none => rfl
  | some data => rw [sizeInBytes, VarInt.tryFrom, if_pos (fits data rfl), map_some, size]

theorem encode_eq (fits : octets.Fits) : encode octets = some (bytes octets) := by
  cases octets with
  | none => rfl
  | some data => rw [encode, VarInt.tryFrom, if_pos (fits data rfl), map_some, bytes]

theorem fits_of_encode (encoded : encode octets = some data) : octets.Fits := by
  rintro _ rfl
  obtain ⟨_, counted, _⟩ := map_eq_some_iff.mp encoded
  exact VarInt.lt_of_tryFrom counted

theorem reads_decode (fits : octets.Fits) : Reads decode (bytes octets) octets := by
  cases octets with
  | none => exact (VarInt.reads_decode (-1)).last (Reads.pure none)
  | some data =>
    have small := fits data rfl
    have length : (Int32.ofNat data.length).toInt = data.length := Int32.toInt_ofNat_of_lt small
    have notNull : Int32.ofNat data.length ≠ -1 := fun null => by
      rw [null] at length
      have negative : (-1 : Int32).toInt = -1 := by decide
      omega
    refine (VarInt.reads_decode _).bind ?_
    rw [length, if_neg (by omega)]
    exact (reads_slice data).map some

end Octets

namespace Header

def sizeInBytes (header : Header) : Option Nat := do
  let key ← Octets.sizeInBytes header.key
  let value ← Octets.sizeInBytes header.value
  pure (key + value)

def encode (header : Header) : Option (List UInt8) := do
  let key ← Octets.encode header.key
  let value ← Octets.encode header.value
  pure (key ++ value)

def decode : Reader Header := do
  let key ← Octets.decode
  let value ← Octets.decode
  pure { key, value }

structure Fits (header : Header) : Prop where
  key : Octets.Fits header.key
  value : Octets.Fits header.value

def size (header : Header) : Nat :=
  Octets.size header.key + Octets.size header.value

def bytes (header : Header) : List UInt8 :=
  Octets.bytes header.key ++ Octets.bytes header.value

variable {header : Header}

theorem length_bytes (header : Header) : header.bytes.length = header.size := by
  rw [bytes, size, length_append, Octets.length_bytes, Octets.length_bytes]

theorem size_pos (header : Header) : 0 < header.size :=
  Nat.add_pos_left (Octets.size_pos _) _

theorem fits_of_size (small : header.size < 2 ^ 31) : header.Fits where
  key := Octets.fits_of_size (Nat.lt_of_le_of_lt (Nat.le_add_right _ _) small)
  value := Octets.fits_of_size (Nat.lt_of_le_of_lt (Nat.le_add_left _ _) small)

theorem sizeInBytes_eq (fits : header.Fits) : header.sizeInBytes = some header.size := by
  rw [sizeInBytes, Octets.sizeInBytes_eq fits.key, Octets.sizeInBytes_eq fits.value]
  rfl

theorem encode_eq (fits : header.Fits) : header.encode = some header.bytes := by
  rw [encode, Octets.encode_eq fits.key, Octets.encode_eq fits.value]
  rfl

theorem fits_of_encode (encoded : header.encode = some data) : header.Fits := by
  obtain ⟨_, keyed, rest⟩ := bind_eq_some_iff.mp encoded
  obtain ⟨_, valued, _⟩ := bind_eq_some_iff.mp rest
  exact ⟨Octets.fits_of_encode keyed, Octets.fits_of_encode valued⟩

theorem reads_decode (fits : header.Fits) : Reads decode header.bytes header :=
  (Octets.reads_decode fits.key).bind ((Octets.reads_decode fits.value).last (Reads.pure header))

end Header

/-- What one batch may take up in memory once it is decoded. -/
def maxDecodedBatchBytes : Nat :=
  100 * 1024 * 1024

abbrev Headers := List Header

namespace Headers

def sizeOfHeader : Nat :=
  64

def sizeInBytes (headers : Headers) : Option Nat := do
  let length ← VarInt.tryFrom headers.length
  let sizes ← headers.mapM Header.sizeInBytes
  pure (VarInt.sizeInBytes length + sizes.sum)

def encode (headers : Headers) : Option (List UInt8) := do
  let length ← VarInt.tryFrom headers.length
  let encoded ← headers.mapM Header.encode
  pure (VarInt.encode length ++ encoded.flatten)

/-- A count that the bytes left, or the limit on a decoded batch, cannot hold is refused before any
header is read. -/
def checkCount (count : Nat) : Reader Unit := fun buffer =>
  if count ≤ buffer.length ∧ count * sizeOfHeader ≤ maxDecodedBatchBytes then some ((), buffer) else none

def decode : Reader Headers := do
  let length ← VarInt.decode
  if length.toInt < 0 then failure
  checkCount length.toInt.toNat
  many Header.decode length.toInt.toNat

structure Fits (headers : Headers) : Prop where
  length : headers.length < 2 ^ 31
  each : ∀ header ∈ headers, header.Fits

def size (headers : Headers) : Nat :=
  VarInt.sizeInBytes (Int32.ofNat headers.length) + (headers.map Header.size).sum

def bytes (headers : Headers) : List UInt8 :=
  VarInt.encode (Int32.ofNat headers.length) ++ headers.flatMap Header.bytes

variable {headers : Headers}

theorem length_flatMap_bytes (headers : Headers) :
    (headers.flatMap Header.bytes).length = (headers.map Header.size).sum := by
  rw [length_flatMap]
  congr 1
  exact map_congr_left fun header _ => header.length_bytes

theorem length_bytes (headers : Headers) : headers.bytes.length = headers.size := by
  rw [bytes, size, length_append, VarInt.length_encode, length_flatMap_bytes]

theorem size_pos (headers : Headers) : 0 < headers.size :=
  Nat.add_pos_left (VarInt.sizeInBytes_pos _) _

theorem length_le_sum (headers : Headers) : headers.length ≤ (headers.map Header.size).sum := by
  induction headers with
  | nil => exact Nat.le_refl _
  | cons header rest ih =>
    have := header.size_pos
    rw [length_cons, map_cons, sum_cons]
    omega

theorem fits_of_size (small : headers.size < 2 ^ 31) : headers.Fits := by
  have count := length_le_sum headers
  refine ⟨?_, fun header member => Header.fits_of_size ?_⟩
  · rw [size] at small
    omega
  · have := le_sum_of_mem (mem_map_of_mem (f := Header.size) member)
    rw [size] at small
    omega

theorem sizeInBytes_eq (fits : headers.Fits) : headers.sizeInBytes = some headers.size := by
  rw [sizeInBytes, VarInt.tryFrom, if_pos fits.length,
    mapM_eq_map fun header member => Header.sizeInBytes_eq (fits.each header member)]
  rfl

theorem encode_eq (fits : headers.Fits) : headers.encode = some headers.bytes := by
  rw [encode, VarInt.tryFrom, if_pos fits.length,
    mapM_eq_map fun header member => Header.encode_eq (fits.each header member)]
  rfl

theorem fits_of_encode (encoded : headers.encode = some data) : headers.Fits := by
  obtain ⟨_, counted, rest⟩ := bind_eq_some_iff.mp encoded
  obtain ⟨_, mapped, _⟩ := bind_eq_some_iff.mp rest
  refine ⟨VarInt.lt_of_tryFrom counted, fun header member => ?_⟩
  obtain ⟨_, found⟩ := exists_of_mapM mapped member
  exact Header.fits_of_encode found

theorem reads_decode (fits : headers.Fits) (budget : headers.length * sizeOfHeader ≤ maxDecodedBatchBytes) :
    Reads decode headers.bytes headers := by
  have length : (Int32.ofNat headers.length).toInt = headers.length :=
    Int32.toInt_ofNat_of_lt fits.length
  refine (VarInt.reads_decode _).bind ?_
  rw [length, if_neg (by omega)]
  refine Reads.peek (c := ()) (fun rest => ?_)
    (reads_many fun header member => Header.reads_decode (fits.each header member))
  have enough : headers.length ≤ (headers.flatMap Header.bytes ++ rest).length := by
    have := length_le_sum headers
    rw [length_append, length_flatMap_bytes]
    omega
  rw [checkCount, if_pos ⟨enough, budget⟩]

theorem refuses_decode (fits : headers.Fits)
    (exceeds : maxDecodedBatchBytes < headers.length * sizeOfHeader) : Refuses decode headers.bytes := by
  have length : (Int32.ofNat headers.length).toInt = headers.length :=
    Int32.toInt_ofNat_of_lt fits.length
  refine (VarInt.reads_decode _).refuses ?_
  rw [length, if_neg (by omega)]
  refine Refuses.bind fun rest => ?_
  rw [checkCount, if_neg fun both => Nat.not_le_of_lt exceeds both.2]

end Headers

namespace Record

def bodySizeInBytes (record : Record) : Option Nat := do
  let key ← Octets.sizeInBytes record.key
  let value ← Octets.sizeInBytes record.value
  let headers ← Headers.sizeInBytes record.headers
  pure (1 + LongVarInt.sizeInBytes record.timestampDelta + VarInt.sizeInBytes record.offsetDelta + key +
    value + headers)

def encode (record : Record) : Option (List UInt8) := do
  let size ← record.bodySizeInBytes
  let length ← VarInt.tryFrom size
  let key ← Octets.encode record.key
  let value ← Octets.encode record.value
  let headers ← Headers.encode record.headers
  pure (VarInt.encode length ++ ([record.attributes] ++ (LongVarInt.encode record.timestampDelta ++
    (VarInt.encode record.offsetDelta ++ (key ++ (value ++ headers))))))

def decodeBody : Reader Record := do
  let attributes ← byte
  let timestampDelta ← LongVarInt.decode
  let offsetDelta ← VarInt.decode
  let key ← Octets.decode
  let value ← Octets.decode
  let headers ← Headers.decode
  pure { attributes, timestampDelta, offsetDelta, key, value, headers }

/-- The length bounds everything that follows it: the body is split off, and must be read to its end. -/
def decode : Reader Record := do
  let length ← VarInt.decode
  if length.toInt < 0 then failure
  let body ← slice length.toInt.toNat
  match decodeBody body with
  | some (record, []) => pure record
  | _ => failure

def sizeOfRecord : Nat :=
  112

def allocatedSize (record : Record) : Nat :=
  sizeOfRecord + record.headers.length * Headers.sizeOfHeader

def bodySize (record : Record) : Nat :=
  1 + LongVarInt.sizeInBytes record.timestampDelta + VarInt.sizeInBytes record.offsetDelta +
    Octets.size record.key + Octets.size record.value + Headers.size record.headers

def size (record : Record) : Nat :=
  VarInt.sizeInBytes (Int32.ofNat record.bodySize) + record.bodySize

def body (record : Record) : List UInt8 :=
  [record.attributes] ++ (LongVarInt.encode record.timestampDelta ++
    (VarInt.encode record.offsetDelta ++ (Octets.bytes record.key ++
    (Octets.bytes record.value ++ Headers.bytes record.headers))))

def bytes (record : Record) : List UInt8 :=
  VarInt.encode (Int32.ofNat record.bodySize) ++ record.body

structure Fits (record : Record) : Prop where
  key : Octets.Fits record.key
  value : Octets.Fits record.value
  headers : Headers.Fits record.headers
  body : record.bodySize < 2 ^ 31

variable {record : Record}

theorem length_body (record : Record) : record.body.length = record.bodySize := by
  simp only [body, bodySize, length_append, length_singleton, LongVarInt.length_encode,
    VarInt.length_encode, Octets.length_bytes, Headers.length_bytes]
  omega

theorem length_bytes (record : Record) : record.bytes.length = record.size := by
  rw [bytes, size, length_append, VarInt.length_encode, length_body]

theorem fits_of_bodySize (small : record.bodySize < 2 ^ 31) : record.Fits := by
  have total := small
  rw [bodySize] at total
  exact ⟨Octets.fits_of_size (by omega), Octets.fits_of_size (by omega), Headers.fits_of_size (by omega), small⟩

theorem seven_le_size (record : Record) : 7 ≤ record.size := by
  have length := VarInt.sizeInBytes_pos (Int32.ofNat record.bodySize)
  have timestamp := LongVarInt.sizeInBytes_pos record.timestampDelta
  have offset := VarInt.sizeInBytes_pos record.offsetDelta
  have key := Octets.size_pos record.key
  have value := Octets.size_pos record.value
  have headers := Headers.size_pos record.headers
  rw [size]
  rw [bodySize] at length ⊢
  omega

theorem bodySizeInBytes_eq (fits : record.Fits) : record.bodySizeInBytes = some record.bodySize := by
  rw [bodySizeInBytes, Octets.sizeInBytes_eq fits.key, Octets.sizeInBytes_eq fits.value,
    Headers.sizeInBytes_eq fits.headers]
  rfl

theorem sized_of_fits (fits : record.Fits) :
    record.bodySizeInBytes.bind VarInt.tryFrom = some (Int32.ofNat record.bodySize) := by
  rw [bodySizeInBytes_eq fits, bind_some, VarInt.tryFrom, if_pos fits.body]

theorem encode_eq (fits : record.Fits) : record.encode = some record.bytes := by
  rw [encode, bodySizeInBytes_eq fits, Octets.encode_eq fits.key, Octets.encode_eq fits.value,
    Headers.encode_eq fits.headers]
  simp only [bind_eq_bind, bind_some, VarInt.tryFrom, if_pos fits.body]
  rfl

theorem fits_of_encode (encoded : record.encode = some data) : record.Fits := by
  obtain ⟨_, sized, rest⟩ := bind_eq_some_iff.mp encoded
  obtain ⟨_, counted, rest⟩ := bind_eq_some_iff.mp rest
  obtain ⟨key, keyed, rest⟩ := bind_eq_some_iff.mp rest
  obtain ⟨value, valued, rest⟩ := bind_eq_some_iff.mp rest
  obtain ⟨headers, written, _⟩ := bind_eq_some_iff.mp rest
  have key := Octets.fits_of_encode keyed
  have value := Octets.fits_of_encode valued
  have headers := Headers.fits_of_encode written
  have same : record.bodySizeInBytes = some record.bodySize := by
    rw [bodySizeInBytes, Octets.sizeInBytes_eq key, Octets.sizeInBytes_eq value, Headers.sizeInBytes_eq headers]
    rfl
  rw [same] at sized
  cases sized
  exact ⟨key, value, headers, VarInt.lt_of_tryFrom counted⟩

theorem reads_decodeBody (fits : record.Fits)
    (budget : record.headers.length * Headers.sizeOfHeader ≤ maxDecodedBatchBytes) :
    Reads decodeBody record.body record :=
  (reads_byte _).bind ((LongVarInt.reads_decode _).bind ((VarInt.reads_decode _).bind
    ((Octets.reads_decode fits.key).bind ((Octets.reads_decode fits.value).bind
    ((Headers.reads_decode fits.headers budget).last (Reads.pure record))))))

theorem toInt_bodySize (fits : record.Fits) : (Int32.ofNat record.bodySize).toInt = record.body.length := by
  rw [length_body]
  exact Int32.toInt_ofNat_of_lt fits.body

theorem reads_decode (fits : record.Fits)
    (budget : record.headers.length * Headers.sizeOfHeader ≤ maxDecodedBatchBytes) :
    Reads decode record.bytes record := by
  refine (VarInt.reads_decode _).bind ?_
  rw [toInt_bodySize fits, if_neg (by omega)]
  refine (reads_slice record.body).last ?_
  rw [(reads_decodeBody fits budget).all]
  exact Reads.pure record

theorem refuses_decode (fits : record.Fits)
    (exceeds : maxDecodedBatchBytes < record.headers.length * Headers.sizeOfHeader) :
    Refuses decode record.bytes := by
  have refused : Refuses decodeBody record.body :=
    (reads_byte _).refuses ((LongVarInt.reads_decode _).refuses ((VarInt.reads_decode _).refuses
      ((Octets.reads_decode fits.key).refuses ((Octets.reads_decode fits.value).refuses
      (Headers.refuses_decode fits.headers exceeds).bind))))
  refine (VarInt.reads_decode _).refuses ?_
  rw [toInt_bodySize fits, if_neg (by omega)]
  refine (reads_slice record.body).refuses_last fun rest => ?_
  rw [refused.all]
  rfl

end Record

end Nisshi.SansIo
