import CrSqlite.ChangeStream
import CrSqlite.Library.Reader
import Mathlib.Tactic.Ring

/-!
# WireFormat - messages as bytes

The four messages between client and server are written and read by two switches
(client-server-common/src/index.ts) on top of the primitives of lib0, which stay a
parameter.  An encoder is the list of the bytes written so far, an exception of a
decoder is {lit}`none`.

Main results:

- Theorem {lit}`decodeMsg_encodeMsg`: decoding an encoded message gives the message
  back and uses every byte.
- Theorem {lit}`bytesLib0_roundTrips`: a lib0 written out byte by byte has the
  properties that are assumed.
-/

namespace CrSqlite.WireFormat

open Wire

/-! ## Messages -/

/-- `[Version, number]` with any number. -/
abbrev WireSeq := Int × Int

inductive Msg where
  | ack (seqEnd : WireSeq)
  | establish (sender receiver : Blob) (seqStart : WireSeq) (create : Option Text)
  | receive (sender : Blob) (seqStart seqEnd : WireSeq) (changes : List Changeset)
  | request (seqStart : WireSeq)
deriving DecidableEq

/-- `_tag` of a message. -/
inductive MsgType where
  | ack
  | establish
  | receive
  | request
deriving DecidableEq

def Msg.tag : Msg → MsgType
  | .ack .. => .ack
  | .establish .. => .establish
  | .receive .. => .receive
  | .request .. => .request

/-- `Number.MAX_SAFE_INTEGER`. -/
def maxSafeInteger : Nat := 9007199254740991

/-- A version of signed 64 bits. -/
def FitsBigInt64 (v : Int) : Prop :=
  minInt64 ≤ v ∧ v ≤ maxInt64

def SafeInteger (v : Int) : Prop :=
  -(maxSafeInteger : Int) ≤ v ∧ v ≤ maxSafeInteger

def SeqFits (seq : WireSeq) : Prop :=
  FitsBigInt64 seq.1 ∧ SafeInteger seq.2

def ChangesetFits (change : Changeset) : Prop :=
  FitsBigInt64 change.colVersion ∧ FitsBigInt64 change.dbVersion

/-- The messages with ids of 16 bytes, versions of 64 bits and safe integers; the length
of a JavaScript array is always one. -/
def Msg.Fits : Msg → Prop
  | .ack seqEnd => SeqFits seqEnd
  | .establish sender receiver seqStart _ =>
      sender.length = 16 ∧ receiver.length = 16 ∧ SeqFits seqStart
  | .receive sender seqStart seqEnd changes =>
      sender.length = 16 ∧ SeqFits seqStart ∧ SeqFits seqEnd ∧
        (∀ change ∈ changes, ChangesetFits change) ∧ changes.length ≤ maxSafeInteger
  | .request seqStart => SeqFits seqStart

/-! ## Primitives of lib0 -/

/-- The primitives that are used: each `write` gives the bytes it appends. -/
class Lib0 where
  writeUint8 : UInt8 → Blob
  readUint8 : Reader UInt8 UInt8
  writeBigInt64 : Int → Blob
  readBigInt64 : Reader UInt8 Int
  writeVarInt : Int → Blob
  readVarInt : Reader UInt8 Int
  writeVarUint : Nat → Blob
  readVarUint : Reader UInt8 Nat
  writeVarString : Text → Blob
  readVarString : Reader UInt8 Text
  writeUint8Array : Blob → Blob
  readUint8Array : Nat → Reader UInt8 Blob
  hasContent : Reader UInt8 Bool

/-- Each reader turns what its writer appended back into the value and stops right
behind, and {lit}`hasContent` tells whether anything is left. -/
structure Lib0.RoundTrips [Lib0] : Prop where
  uint8 : ∀ n, Reads readUint8 (writeUint8 n) n
  bigInt64 : ∀ v, FitsBigInt64 v → Reads readBigInt64 (writeBigInt64 v) v
  varInt : ∀ v, SafeInteger v → Reads readVarInt (writeVarInt v) v
  varUint : ∀ n, n ≤ maxSafeInteger → Reads readVarUint (writeVarUint n) n
  varString : ∀ s, Reads readVarString (writeVarString s) s
  uint8Array : ∀ bytes, Reads (readUint8Array bytes.length) (writeUint8Array bytes) bytes
  hasContent : TellsContent hasContent

section Codec

variable [Lib0]

open Lib0

/-! ## Encoder -/

def typeToBin : MsgType → UInt8
  | .ack => 0
  | .establish => 1
  | .receive => 2
  | .request => 3

/-- A version and a number, as every message writes them. -/
def writeSeq (seq : WireSeq) : Blob :=
  writeBigInt64 seq.1 ++ writeVarInt seq.2

/-- The presence byte and the value behind it. -/
def writeVal : Option Text → Blob
  | none => writeUint8 0
  | some val => writeUint8 1 ++ writeVarString val

def writeChange (change : Changeset) : Blob :=
  writeVarString change.tbl ++ (writeVarString change.pk ++ (writeVarString change.cid ++
    (writeVal change.val ++ (writeBigInt64 change.colVersion ++
      writeBigInt64 change.dbVersion))))

/-- What `encodeMsg` writes after the tag. -/
def writeFields : Msg → Blob
  | .ack seqEnd => writeSeq seqEnd
  | .establish sender receiver seqStart create =>
      writeUint8Array sender ++ (writeUint8Array receiver ++ (writeSeq seqStart ++
        create.elim [] writeVarString))
  | .receive sender seqStart seqEnd changes =>
      writeUint8Array sender ++ (writeSeq seqStart ++ (writeSeq seqEnd ++
        (writeVarUint changes.length ++ changes.flatMap writeChange)))
  | .request seqStart => writeSeq seqStart

def encodeMsg (msg : Msg) : Blob :=
  writeUint8 (typeToBin msg.tag) ++ writeFields msg

/-! ## Decoder -/

def readSeq : Reader UInt8 WireSeq := do
  let version ← readBigInt64
  let n ← readVarInt
  return (version, n)

def readVal : Reader UInt8 (Option Text) := do
  let present ← readUint8
  if present = 1 then
    let val ← readVarString
    return some val
  else
    return none

def readChange : Reader UInt8 Changeset := do
  let tbl ← readVarString
  let pk ← readVarString
  let cid ← readVarString
  let val ← readVal
  let colVersion ← readBigInt64
  let dbVersion ← readBigInt64
  return ⟨tbl, pk, cid, val, colVersion, dbVersion⟩

def readAck : Reader UInt8 Msg := do
  let seqEnd ← readSeq
  return .ack seqEnd

/-- The schema name is there when bytes are left over. -/
def readEstablish : Reader UInt8 Msg := do
  let sender ← readUint8Array 16
  let receiver ← readUint8Array 16
  let seqStart ← readSeq
  let create ← Reader.optional hasContent readVarString
  return .establish sender receiver seqStart create

def readReceive : Reader UInt8 Msg := do
  let sender ← readUint8Array 16
  let seqStart ← readSeq
  let seqEnd ← readSeq
  let length ← readVarUint
  let changes ← readChange.times length
  return .receive sender seqStart seqEnd changes

def readRequest : Reader UInt8 Msg := do
  let seqStart ← readSeq
  return .request seqStart

def readMsg : Reader UInt8 Msg := do
  let type ← readUint8
  if type = 0 then readAck
  else if type = 1 then readEstablish
  else if type = 2 then readReceive
  else if type = 3 then readRequest
  else failure

/-- `decodeMsg` with the decoder it leaves. -/
def decodeMsg (msg : Blob) : Option (Msg × Decoder UInt8) :=
  readMsg ⟨msg, 0⟩

/-! ## Round trip -/

variable (h : Lib0.RoundTrips)

include h

/-- Only one text could be written as no bytes. -/
theorem writeVarString_ne_nil (s : Text) : writeVarString s ≠ [] := by
  have hne : s ≠ 'a' :: s := by simp
  exact (h.varString s).ne_nil (h.varString ('a' :: s)) hne

theorem reads_seq {seq : WireSeq} (hseq : SeqFits seq) : Reads readSeq (writeSeq seq) seq :=
  (h.bigInt64 _ hseq.1).bind ((h.varInt _ hseq.2).map fun n => (seq.1, n))

/-- A value, or that there is none, is read back. -/
theorem reads_val (val : Option Text) : Reads readVal (writeVal val) val := by
  cases val with
  | none =>
      have hread : Reads readVal (writeUint8 0 ++ []) none := (h.uint8 0).bind (Reads.pure none)
      rwa [List.append_nil] at hread
  | some val => exact (h.uint8 1).bind ((h.varString val).map some)

/-- A change is read back. -/
theorem reads_change {change : Changeset} (hchange : ChangesetFits change) :
    Reads readChange (writeChange change) change := by
  obtain ⟨hcol, hdb⟩ := hchange
  apply (h.varString _).bind
  apply (h.varString _).bind
  apply (h.varString _).bind
  apply (reads_val h _).bind
  apply (h.bigInt64 _ hcol).bind
  exact (h.bigInt64 _ hdb).map _

/-- The changes of a message are read back. -/
theorem reads_changes {changes : List Changeset} (hfits : ∀ change ∈ changes, ChangesetFits change) :
    Reads (readChange.times changes.length) (changes.flatMap writeChange) changes :=
  Reads.times fun change hchange => reads_change h (hfits change hchange)

/-- The request for a stream is read back, with its schema or without. -/
theorem reads_establish {sender receiver : Blob} {seqStart : WireSeq} (create : Option Text)
    (hsender : sender.length = 16) (hreceiver : receiver.length = 16)
    (hseq : SeqFits seqStart) :
    ReadsLast readEstablish (writeFields (.establish sender receiver seqStart create))
      (.establish sender receiver seqStart create) := by
  have hfrom := h.uint8Array sender
  have hto := h.uint8Array receiver
  rw [hsender] at hfrom
  rw [hreceiver] at hto
  apply hfrom.bind_last
  apply hto.bind_last
  apply (reads_seq h hseq).bind_last
  exact (ReadsLast.optional h.hasContent h.varString (writeVarString_ne_nil h) create).map _

/-- A message with changes is read back. -/
theorem reads_receive {sender : Blob} {seqStart seqEnd : WireSeq} {changes : List Changeset}
    (hsender : sender.length = 16) (hstart : SeqFits seqStart) (hend : SeqFits seqEnd)
    (hfits : ∀ change ∈ changes, ChangesetFits change) (hlen : changes.length ≤ maxSafeInteger) :
    Reads readReceive (writeFields (.receive sender seqStart seqEnd changes))
      (.receive sender seqStart seqEnd changes) := by
  have hfrom := h.uint8Array sender
  rw [hsender] at hfrom
  apply hfrom.bind
  apply (reads_seq h hstart).bind
  apply (reads_seq h hend).bind
  apply (h.varUint _ hlen).bind
  exact (reads_changes h hfits).map _

/-- A message is read back behind its tag. -/
theorem reads_msg {msg : Msg} (hmsg : msg.Fits) : ReadsLast readMsg (encodeMsg msg) msg := by
  apply (h.uint8 _).bind_last
  cases msg with
  | ack seqEnd => exact ((reads_seq h hmsg).map Msg.ack).last
  | establish sender receiver seqStart create =>
      obtain ⟨hsender, hreceiver, hseq⟩ := hmsg
      exact reads_establish h create hsender hreceiver hseq
  | receive sender seqStart seqEnd changes =>
      obtain ⟨hsender, hstart, hend, hfits, hlen⟩ := hmsg
      exact (reads_receive h hsender hstart hend hfits hlen).last
  | request seqStart => exact ((reads_seq h hmsg).map Msg.request).last

/-- Decoding an encoded message gives the message back and uses every byte. -/
theorem decodeMsg_encodeMsg {msg : Msg} (hmsg : msg.Fits) :
    decodeMsg (encodeMsg msg) = some (msg, ⟨encodeMsg msg, (encodeMsg msg).length⟩) := by
  have hread := reads_msg h hmsg []
  simpa [decodeMsg] using hread

end Codec

/-! ## The primitives byte by byte -/

/-- Groups of seven bits, the lowest first; the top bit says that more follow. -/
def varUintBytes (n : Nat) : Blob :=
  if n ≤ 127 then [UInt8.ofNat n] else UInt8.ofNat (128 + n % 128) :: varUintBytes (n / 128)

def readVarUintBytes : Blob → Option (Nat × Blob)
  | [] => none
  | b :: bytes =>
      if b.toNat < 128 then some (b.toNat, bytes)
      else (readVarUintBytes bytes).map fun (n, rest) => (b.toNat - 128 + 128 * n, rest)

/-- The first byte has the sign and six bits. -/
def varIntBytes (v : Int) : Blob :=
  let sign := if v < 0 then 64 else 0
  if v.natAbs ≤ 63 then [UInt8.ofNat (sign + v.natAbs)]
  else UInt8.ofNat (128 + sign + v.natAbs % 64) :: varUintBytes (v.natAbs / 64)

def readVarIntBytes : Blob → Option (Int × Blob)
  | [] => none
  | b :: bytes =>
      let sign : Int := if b.toNat / 64 % 2 = 1 then -1 else 1
      if b.toNat < 128 then some (sign * (b.toNat % 64), bytes)
      else (readVarUintBytes bytes).map fun (n, rest) =>
        (sign * (b.toNat % 64 + 64 * n), rest)

/-- The lowest bytes of a number, the highest of them first. -/
def fixedBytes : Nat → Nat → Blob
  | 0, _ => []
  | k + 1, n => UInt8.ofNat (n / 256 ^ k) :: fixedBytes k n

def ofFixedBytes (bytes : Blob) : Nat :=
  bytes.foldl (fun n b => 256 * n + b.toNat) 0

def readFixedBytes (k : Nat) (bytes : Blob) : Option (Blob × Blob) :=
  if k ≤ bytes.length then some (bytes.take k, bytes.drop k) else none

/-- Two's complement in eight bytes. -/
def bigInt64Bytes (v : Int) : Blob :=
  fixedBytes 8 (v % 18446744073709551616).toNat

def readBigInt64Bytes (bytes : Blob) : Option (Int × Blob) :=
  (readFixedBytes 8 bytes).map fun (w, rest) =>
    (if ofFixedBytes w < 9223372036854775808 then (ofFixedBytes w : Int)
      else ofFixedBytes w - 18446744073709551616, rest)

def utf8Bytes (s : Text) : Blob :=
  (String.ofList s).toByteArray.data.toList

/-- The length in bytes and the UTF-8 form. -/
def varStringBytes (s : Text) : Blob :=
  varUintBytes (utf8Bytes s).length ++ utf8Bytes s

def readVarStringBytes (bytes : Blob) : Option (Text × Blob) := do
  let (length, rest) ← readVarUintBytes bytes
  let (utf8, rest) ← readFixedBytes length rest
  let chars ← (ByteArray.mk utf8.toArray).utf8Decode?
  return (chars.toList, rest)

@[reducible]
def bytesLib0 : Lib0 where
  writeUint8 n := [n]
  readUint8 := Reader.onRest fun bytes => bytes.head?.map fun b => (b, bytes.tail)
  writeBigInt64 := bigInt64Bytes
  readBigInt64 := Reader.onRest readBigInt64Bytes
  writeVarInt := varIntBytes
  readVarInt := Reader.onRest readVarIntBytes
  writeVarUint := varUintBytes
  readVarUint := Reader.onRest readVarUintBytes
  writeVarString := varStringBytes
  readVarString := Reader.onRest readVarStringBytes
  writeUint8Array bytes := bytes
  readUint8Array k := Reader.onRest (readFixedBytes k)
  hasContent d := some (d.pos != d.arr.length, d)

/-- Groups of seven bits are read back. -/
theorem readVarUintBytes_append (n : Nat) (after : Blob) :
    readVarUintBytes (varUintBytes n ++ after) = some (n, after) := by
  induction n using varUintBytes.induct with
  | case1 n hn =>
      have hbyte : (UInt8.ofNat n).toNat = n := by
        rw [UInt8.toNat_ofNat']
        omega
      rw [varUintBytes, if_pos hn, List.singleton_append, readVarUintBytes, hbyte,
        if_pos (by omega)]
  | case2 n hn ih =>
      have hbyte : (UInt8.ofNat (128 + n % 128)).toNat = 128 + n % 128 := by
        rw [UInt8.toNat_ofNat']
        omega
      have hsum : 128 + n % 128 - 128 + 128 * (n / 128) = n := by omega
      rw [varUintBytes, if_neg hn, List.cons_append, readVarUintBytes, hbyte,
        if_neg (by omega), ih, Option.map_some]
      simp only [hsum]

/-- A sign, six bits and groups of seven bits are read back. -/
theorem readVarIntBytes_append (v : Int) (after : Blob) :
    readVarIntBytes (varIntBytes v ++ after) = some (v, after) := by
  have hsign : (if v < 0 then 64 else 0 : Nat) = 64 ∧ v < 0 ∨
      (if v < 0 then 64 else 0 : Nat) = 0 ∧ 0 ≤ v := by
    by_cases hv : v < 0
    · exact Or.inl ⟨if_pos hv, hv⟩
    · exact Or.inr ⟨if_neg hv, by omega⟩
  rw [varIntBytes]
  generalize (if v < 0 then 64 else 0 : Nat) = sign at hsign ⊢
  by_cases hsmall : v.natAbs ≤ 63
  · have hbyte : (UInt8.ofNat (sign + v.natAbs)).toNat = sign + v.natAbs := by
      rw [UInt8.toNat_ofNat']
      omega
    simp only [if_pos hsmall, List.singleton_append, readVarIntBytes, hbyte]
    rw [if_pos (by omega)]
    rcases hsign with ⟨rfl, hv⟩ | ⟨rfl, hv⟩
    · rw [if_pos (by omega)]
      congr 2
      omega
    · rw [if_neg (by omega)]
      congr 2
      omega
  · have hbyte : (UInt8.ofNat (128 + sign + v.natAbs % 64)).toNat =
        128 + sign + v.natAbs % 64 := by
      rw [UInt8.toNat_ofNat']
      omega
    simp only [if_neg hsmall, List.cons_append, readVarIntBytes, hbyte]
    rw [if_neg (by omega), readVarUintBytes_append, Option.map_some]
    rcases hsign with ⟨rfl, hv⟩ | ⟨rfl, hv⟩
    · rw [if_pos (by omega)]
      congr 2
      omega
    · rw [if_neg (by omega)]
      congr 2
      omega

/-- A number of a fixed size has that many bytes. -/
theorem length_fixedBytes (k n : Nat) : (fixedBytes k n).length = k := by
  induction k with
  | zero => rfl
  | succ k ih => rw [fixedBytes, List.length_cons, ih]

/-- Its bytes are put behind those read before. -/
private theorem foldl_fixedBytes (k n acc : Nat) :
    (fixedBytes k n).foldl (fun n b => 256 * n + b.toNat) acc = acc * 256 ^ k + n % 256 ^ k := by
  induction k generalizing acc with
  | zero => simp [fixedBytes, Nat.mod_one]
  | succ k ih =>
      have hsplit : n % 256 ^ (k + 1) = n % 256 ^ k + 256 ^ k * (n / 256 ^ k % 256) := by
        rw [pow_succ, Nat.mod_mul]
      rw [fixedBytes, List.foldl_cons, ih, UInt8.toNat_ofNat', hsplit]
      ring

theorem ofFixedBytes_fixedBytes {k n : Nat} (h : n < 256 ^ k) :
    ofFixedBytes (fixedBytes k n) = n := by
  rw [ofFixedBytes, foldl_fixedBytes, Nat.zero_mul, Nat.zero_add, Nat.mod_eq_of_lt h]

/-- A fixed number of bytes is read. -/
theorem readFixedBytes_append (bytes after : Blob) :
    readFixedBytes bytes.length (bytes ++ after) = some (bytes, after) := by
  simp [readFixedBytes]

/-- A version of 64 bits is read back. -/
theorem readBigInt64Bytes_append {v : Int} (h : FitsBigInt64 v) (after : Blob) :
    readBigInt64Bytes (bigInt64Bytes v ++ after) = some (v, after) := by
  obtain ⟨hmin, hmax⟩ := h
  rw [minInt64] at hmin
  rw [maxInt64] at hmax
  have hread := readFixedBytes_append (bigInt64Bytes v) after
  rw [bigInt64Bytes, length_fixedBytes] at hread
  have hnat : ofFixedBytes (fixedBytes 8 (v % 18446744073709551616).toNat) =
      (v % 18446744073709551616).toNat := by
    apply ofFixedBytes_fixedBytes
    omega
  rw [readBigInt64Bytes, bigInt64Bytes, hread, Option.map_some]
  simp only [hnat]
  congr 2
  split <;> omega

/-- A text is read back. -/
theorem readVarStringBytes_append (s : Text) (after : Blob) :
    readVarStringBytes (varStringBytes s ++ after) = some (s, after) := by
  have hread := readFixedBytes_append (utf8Bytes s) after
  have hutf8 : ByteArray.mk (utf8Bytes s).toArray = s.utf8Encode := by
    rw [utf8Bytes, Array.toArray_toList, String.toByteArray_ofList]
  simp only [readVarStringBytes, varStringBytes, List.append_assoc, readVarUintBytes_append,
    Option.bind_eq_bind, Option.bind_some, hread, hutf8, List.utf8Decode?_utf8Encode]
  rfl

/-- A lib0 written out byte by byte has the properties that are assumed. -/
theorem bytesLib0_roundTrips : @Lib0.RoundTrips bytesLib0 :=
  letI := bytesLib0
  { uint8 := fun _ => Reads.onRest fun _ => rfl
    bigInt64 := fun _ hv => Reads.onRest (readBigInt64Bytes_append hv)
    varInt := fun v _ => Reads.onRest (readVarIntBytes_append v)
    varUint := fun n _ => Reads.onRest (readVarUintBytes_append n)
    varString := fun s => Reads.onRest (readVarStringBytes_append s)
    uint8Array := fun bytes => Reads.onRest (readFixedBytes_append bytes)
    hasContent := fun _ => rfl }

/-- A message with two changes, one of them of a null. -/
def twoChanges : Msg :=
  .receive (List.replicate 16 7) (4, 0) (maxInt64, -65)
    [⟨"a".toList, "1".toList, "b".toList, none, 1, -1⟩,
      ⟨"a".toList, "2".toList, "é".toList, some [], 1, maxInt64⟩]

/-- The message with two changes is decoded. -/
theorem decodeMsg_encodeMsg_twoChanges :
    @decodeMsg bytesLib0 (@encodeMsg bytesLib0 twoChanges) =
      some (twoChanges, ⟨@encodeMsg bytesLib0 twoChanges,
        (@encodeMsg bytesLib0 twoChanges).length⟩) := by
  apply @decodeMsg_encodeMsg bytesLib0 bytesLib0_roundTrips
  simp [twoChanges, Msg.Fits, SeqFits, FitsBigInt64, SafeInteger, ChangesetFits, minInt64,
    maxInt64, maxSafeInteger]

end CrSqlite.WireFormat
