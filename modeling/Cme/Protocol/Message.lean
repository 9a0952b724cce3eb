import Cme.Memory.Codec

/-!
# cme — control messages

`daemon/shared/protocol/message.hpp` and `messages.hpp`: a header of four words,
a payload behind it, and one class per message. The base class reads the header
and refuses what it cannot read; a derived class says which type it expects. A
type and a version come off the wire as words, so a header can name a type no
enumerator has.

`read_eq_some_iff` says which bytes a class reads, and `control_messages_decode`
that it reads exactly what was framed.
-/

namespace Cme.Protocol

open Memory

abbrev Word := BitVec 32

inductive MessageType where
  | none
  | answer
  | hello
  | welcome
  | createDomain
  | deleteDomain
  | joinDomain
  | leaveDomain
  deriving DecidableEq, Repr

/-- The enumerator's value. -/
def MessageType.code : MessageType → Word
  | .none => 0
  | .answer => 1
  | .hello => 2
  | .welcome => 3
  | .createDomain => 4
  | .deleteDomain => 5
  | .joinDomain => 6
  | .leaveDomain => 7

theorem MessageType.code_inj {s t : MessageType} (h : s.code = t.code) : s = t := by
  cases s <;> cases t <;> first | rfl | exact absurd h (by decide)

def isDomainRequest (type : MessageType) : Bool :=
  type == .createDomain || type == .deleteDomain || type == .joinDomain || type == .leaveDomain

structure Header where
  version : Word
  type : Word
  sequence : Word
  payloadBytes : Word
  deriving DecidableEq, Repr

/-- `Header_t` as it is copied. -/
def headerCodec : Codec Header :=
  (Codec.word.pair (Codec.word.pair (Codec.word.pair Codec.word))).carry
    { toFun := fun w => ⟨w.1, w.2.1, w.2.2.1, w.2.2.2⟩
      invFun := fun h => (h.version, h.type, h.sequence, h.payloadBytes)
      left_inv := fun _ => rfl
      right_inv := fun _ => rfl }

def newestVersion : Nat := 1

def oldestVersion : Nat := 1

def longestMessage : Nat := headerCodec.size + 64

def isSupported (version : Word) : Bool :=
  decide (oldestVersion ≤ version.toNat) && decide (version.toNat ≤ newestVersion)

/-! ### The base class -/

/-- A received message: its bytes, and what `expects` is overridden with, if it is. -/
structure Message where
  bytes : List Byte
  expected : Option MessageType

namespace Message

def header (m : Message) : Option Header :=
  if m.bytes.length < headerCodec.size then none else some (headerCodec.load 0 m.bytes)

def version (m : Message) : Word :=
  match m.header with
  | some read => read.version
  | none => 0

def sequence (m : Message) : Word :=
  match m.header with
  | some read => read.sequence
  | none => 0

def type (m : Message) : Word :=
  match m.header with
  | some read => read.type
  | none => MessageType.none.code

/-- The base accepts whatever arrived. -/
def expects (m : Message) : Word :=
  match m.expected with
  | some type => type.code
  | none => m.type

def isReadable (m : Message) : Bool :=
  match m.header with
  | some read => isSupported read.version && read.type == m.expects
  | none => false

/-- The leading bytes behind the header, as the payload type of the derived class. -/
def payload {P : Type} (c : Codec P) (m : Message) : Option P :=
  match m.header with
  | none => none
  | some read =>
    if !m.isReadable ∨ read.payloadBytes.toNat < c.size ∨
        m.bytes.length < headerCodec.size + c.size then none
    else some (c.load headerCodec.size m.bytes)

end Message

def makeFrame {P : Type} (c : Codec P) (type : MessageType) (version sequence : Word)
    (payload : P) : List Byte :=
  headerCodec.encode ⟨version, type.code, sequence, .ofNat 32 c.size⟩ ++ c.encode payload

/-! ### The messages -/

/-- `Answer_t`; the result's 32 bits. -/
structure Answer where
  result : Word
  deriving DecidableEq, Repr

structure Hello where
  abiVersion : Word
  deriving DecidableEq, Repr

structure Welcome where
  abiVersion : Word
  areaBytes : Word
  deriving DecidableEq, Repr

def maxName : Nat := 16

structure DomainRequest where
  name : Vector Byte maxName
  deriving DecidableEq

def answerCodec : Codec Answer :=
  Codec.word.carry ⟨fun w => ⟨w⟩, Answer.result, fun _ => rfl, fun _ => rfl⟩

def helloCodec : Codec Hello :=
  Codec.word.carry ⟨fun w => ⟨w⟩, Hello.abiVersion, fun _ => rfl, fun _ => rfl⟩

def welcomeCodec : Codec Welcome :=
  (Codec.word.pair Codec.word).carry
    ⟨fun w => ⟨w.1, w.2⟩, fun p => (p.abiVersion, p.areaBytes), fun _ => rfl, fun _ => rfl⟩

def domainRequestCodec : Codec DomainRequest :=
  (Codec.array maxName).carry ⟨fun v => ⟨v⟩, DomainRequest.name, fun _ => rfl, fun _ => rfl⟩

/-- `TypedMessage::read`. -/
def TypedMessage.read {P : Type} (kind : MessageType) (c : Codec P) (bytes : List Byte) :
    Option P :=
  ({ bytes, expected := some kind } : Message).payload c

def TypedMessage.frame {P : Type} (kind : MessageType) (c : Codec P) (version sequence : Word)
    (carried : P) : List Byte :=
  makeFrame c kind version sequence carried

def DomainRequestMessage.read (bytes : List Byte) (asked : MessageType) : Option DomainRequest :=
  ({ bytes, expected := some asked } : Message).payload domainRequestCodec

def DomainRequestMessage.frame (asked : MessageType) (version sequence : Word)
    (wanted : DomainRequest) : List Byte :=
  makeFrame domainRequestCodec asked version sequence wanted

/-- The message classes, a domain request at the type its caller asks for. -/
inductive Class where
  | hello
  | welcome
  | answer
  | domainRequest (asked : MessageType) (h : isDomainRequest asked = true)

namespace Class

def type : Class → MessageType
  | .hello => .hello
  | .welcome => .welcome
  | .answer => .answer
  | .domainRequest asked _ => asked

/-- `T_Payload`. -/
def Payload : Class → Type
  | .hello => Hello
  | .welcome => Welcome
  | .answer => Answer
  | .domainRequest _ _ => DomainRequest

def codec : (k : Class) → Codec k.Payload
  | .hello => helloCodec
  | .welcome => welcomeCodec
  | .answer => answerCodec
  | .domainRequest _ _ => domainRequestCodec

def read : (k : Class) → List Byte → Option k.Payload
  | .hello, bytes => TypedMessage.read .hello helloCodec bytes
  | .welcome, bytes => TypedMessage.read .welcome welcomeCodec bytes
  | .answer, bytes => TypedMessage.read .answer answerCodec bytes
  | .domainRequest asked _, bytes => DomainRequestMessage.read bytes asked

def frame : (k : Class) → Word → Word → k.Payload → List Byte
  | .hello, version, sequence, p => TypedMessage.frame .hello helloCodec version sequence p
  | .welcome, version, sequence, p => TypedMessage.frame .welcome welcomeCodec version sequence p
  | .answer, version, sequence, p => TypedMessage.frame .answer answerCodec version sequence p
  | .domainRequest asked _, version, sequence, p =>
    DomainRequestMessage.frame asked version sequence p

/-- The message a class makes of the bytes it is given. -/
def message (k : Class) (bytes : List Byte) : Message := { bytes, expected := some k.type }

variable (k : Class) {bytes : List Byte} {version sequence : Word}

theorem read_eq (bytes : List Byte) : k.read bytes = (k.message bytes).payload k.codec := by
  cases k <;> rfl

theorem frame_eq (p : k.Payload) :
    k.frame version sequence p = makeFrame k.codec k.type version sequence p := by
  cases k <;> rfl

theorem size_le : headerCodec.size + k.codec.size ≤ longestMessage := by
  cases k <;> exact Nat.le_of_ble_eq_true rfl

/-- One class per type: a domain request asks for none of the three fixed types. -/
theorem eq_of_type {k' : Class} (h : k'.type = k.type) : k' = k := by
  cases k with
  | domainRequest asked ha =>
    cases k' with
    | domainRequest asked' ha' =>
      obtain rfl : asked' = asked := h
      rfl
    | _ =>
      obtain rfl : _ = asked := h
      cases ha
  | _ =>
    cases k' with
    | domainRequest asked' ha' =>
      obtain rfl : asked' = _ := h
      cases ha'
    | _ => first | rfl | cases h

/-- What the header at the front of the bytes must say for the class to read them. -/
structure Reads (bytes : List Byte) : Prop where
  long : headerCodec.size + k.codec.size ≤ bytes.length
  supported : isSupported (headerCodec.load 0 bytes).version = true
  type_eq : (headerCodec.load 0 bytes).type = k.type.code
  payload_le : k.codec.size ≤ (headerCodec.load 0 bytes).payloadBytes.toNat

theorem header_message (h : headerCodec.size ≤ bytes.length) :
    (k.message bytes).header = some (headerCodec.load 0 bytes) :=
  if_neg (show ¬ bytes.length < headerCodec.size by omega)

theorem isReadable_iff (h : headerCodec.size ≤ bytes.length) : (k.message bytes).isReadable = true ↔
      isSupported (headerCodec.load 0 bytes).version = true ∧
        (headerCodec.load 0 bytes).type = k.type.code := by
  rw [Message.isReadable, k.header_message h]
  show (_ && _ == k.type.code) = true ↔ _
  rw [Bool.and_eq_true, beq_iff_eq]

theorem read_eq_some (h : k.Reads bytes) :
    k.read bytes = some (k.codec.load headerCodec.size bytes) := by
  have hlong := h.long
  have hheader : headerCodec.size ≤ bytes.length := by omega
  have hreadable := (k.isReadable_iff hheader).mpr ⟨h.supported, h.type_eq⟩
  rw [read_eq, Message.payload, k.header_message hheader]
  refine if_neg ?_
  rw [hreadable]
  -- each refusal is against one of the conditions
  rintro (hnot | hshort | hshort)
  · cases hnot
  · exact Nat.not_le_of_lt hshort h.payload_le
  · exact Nat.not_le_of_lt hshort hlong

theorem reads_of_read {p : k.Payload} (h : k.read bytes = some p) : k.Reads bytes := by
  rw [read_eq, Message.payload] at h
  by_cases hheader : headerCodec.size ≤ bytes.length
  · rw [k.header_message hheader] at h
    dsimp only at h
    split at h
    · cases h
    · next hnot =>
      -- none of the three refusals applied
      rw [not_or, not_or, Nat.not_lt, Nat.not_lt] at hnot
      obtain ⟨hreadable, hpayload, hlong⟩ := hnot
      obtain ⟨hsupported, htype⟩ := (k.isReadable_iff hheader).mp (by simpa using hreadable)
      exact ⟨hlong, hsupported, htype, hpayload⟩
  · rw [show (k.message bytes).header = none from if_pos (Nat.lt_of_not_le hheader)] at h
    cases h

/-- **What a class reads**, and that it is the bytes behind the header. -/
theorem read_eq_some_iff {p : k.Payload} : k.read bytes = some p ↔
    k.Reads bytes ∧ k.codec.encode p = (bytes.drop headerCodec.size).take k.codec.size := by
  constructor
  · intro h
    have hreads := k.reads_of_read h
    rw [k.read_eq_some hreads, Option.some.injEq] at h
    subst h
    exact ⟨hreads, k.codec.encode_load hreads.long⟩
  · rintro ⟨hreads, hp⟩
    rw [k.read_eq_some hreads, Codec.load, ← hp, Codec.decode_encode]

theorem read_eq_none (h : ¬ k.Reads bytes) : k.read bytes = none := by
  rcases hread : k.read bytes with _ | p
  · rfl
  · exact absurd (k.reads_of_read hread) h

/-! ### Frames -/

theorem length_frame (p : k.Payload) :
    (k.frame version sequence p).length = headerCodec.size + k.codec.size := by
  rw [frame_eq, makeFrame]
  simp

theorem header_frame (p : k.Payload) (rest : List Byte) :
    headerCodec.load 0 (k.frame version sequence p ++ rest) =
      ⟨version, k.type.code, sequence, .ofNat 32 k.codec.size⟩ := by
  rw [frame_eq, makeFrame, List.append_assoc, Codec.load_append]

theorem reads_frame (h : isSupported version = true) (p : k.Payload) (rest : List Byte) :
    k.Reads (k.frame version sequence p ++ rest) := by
  have hsize := k.size_le
  have hlongest : longestMessage = 80 := rfl
  refine ⟨?_, ?_, ?_, ?_⟩
  · rw [List.length_append, length_frame]
    omega
  · rw [header_frame]
    exact h
  · rw [header_frame]
  · rw [header_frame, BitVec.toNat_ofNat]
    exact Nat.le_of_eq (Nat.mod_eq_of_lt (by omega)).symm

theorem read_frame (h : isSupported version = true) (p : k.Payload) (rest : List Byte) :
    k.read (k.frame version sequence p ++ rest) = some p := by
  refine k.read_eq_some_iff.mpr ⟨k.reads_frame h p rest, ?_⟩
  rw [frame_eq, makeFrame, List.append_assoc]
  simp

theorem message_frame (p : k.Payload) (rest : List Byte) :
    (k.message (k.frame version sequence p ++ rest)).header =
      some ⟨version, k.type.code, sequence, .ofNat 32 k.codec.size⟩ := by
  rw [k.header_message, header_frame]
  rw [List.length_append, length_frame]
  omega

/-- Bytes that begin with the header of a frame are read by no class of another type. -/
theorem not_reads_frame {k' : Class} (hne : k'.type ≠ k.type) (p : k.Payload) (rest : List Byte) :
    ¬ k'.Reads (k.frame version sequence p ++ rest) := by
  intro h
  have htype := h.type_eq
  rw [header_frame] at htype
  exact hne (MessageType.code_inj htype).symm

/-- A frame cut short is read by no class at all: the frame's own class misses
bytes, and any other finds the frame's type or no header. -/
theorem not_reads_take {k' : Class} (p : k.Payload) {n : Nat}
    (hn : n < (k.frame version sequence p).length) :
    ¬ k'.Reads ((k.frame version sequence p).take n) := by
  intro h
  have hlong := h.long
  rw [length_frame] at hn
  rw [List.length_take, length_frame] at hlong
  by_cases htype : k'.type = k.type
  · obtain rfl := k.eq_of_type htype
    omega
  · have hfront : headerCodec.load 0 ((k.frame version sequence p).take n) =
        headerCodec.load 0 (k.frame version sequence p ++ []) := by
      simp only [Codec.load, List.drop_zero, List.append_nil]
      rw [List.take_take, Nat.min_eq_left (by omega)]
    have hcode := h.type_eq
    rw [hfront, header_frame] at hcode
    exact htype (MessageType.code_inj hcode).symm

end Class

/-- **Control messages decode exactly what was framed.** A class reads the bytes
that are long enough and whose header it agrees with, as the payload behind the
header; a frame reads back with its type, version and sequence whatever follows
it, and by its own class only; a frame cut short is read by none. -/
theorem control_messages_decode (k : Class) :
    (∀ bytes, (k.read bytes).isSome ↔ headerCodec.size + k.codec.size ≤ bytes.length ∧
      isSupported (headerCodec.load 0 bytes).version = true ∧
      (headerCodec.load 0 bytes).type = k.type.code ∧
      k.codec.size ≤ (headerCodec.load 0 bytes).payloadBytes.toNat) ∧
    (∀ bytes p, k.read bytes = some p →
      k.codec.encode p = (bytes.drop headerCodec.size).take k.codec.size) ∧
    (∀ version sequence p rest, isSupported version = true →
      k.read (k.frame version sequence p ++ rest) = some p ∧
      (k.message (k.frame version sequence p ++ rest)).type = k.type.code ∧
      (k.message (k.frame version sequence p ++ rest)).version = version ∧
      (k.message (k.frame version sequence p ++ rest)).sequence = sequence ∧
      ∀ k' : Class, k'.type ≠ k.type → k'.read (k.frame version sequence p ++ rest) = none) ∧
    ∀ version sequence p n, n < (k.frame version sequence p).length →
      ∀ k' : Class, k'.read ((k.frame version sequence p).take n) = none := by
  refine ⟨fun bytes => ⟨fun h => ?_, fun ⟨hlong, hversion, htype, hpayload⟩ => ?_⟩,
    fun bytes p h => (k.read_eq_some_iff.mp h).2, fun version sequence p rest h => ?_,
    fun version sequence p n hn k' => k'.read_eq_none (k.not_reads_take p hn)⟩
  · obtain ⟨p, hp⟩ := Option.isSome_iff_exists.mp h
    obtain ⟨hlong, hversion, htype, hpayload⟩ := k.reads_of_read hp
    exact ⟨hlong, hversion, htype, hpayload⟩
  · rw [k.read_eq_some ⟨hlong, hversion, htype, hpayload⟩]
    rfl
  · refine ⟨k.read_frame h p rest, ?_, ?_, ?_, fun k' hne => k'.read_eq_none
      (k.not_reads_frame hne p rest)⟩
    · rw [Message.type, k.message_frame p rest]
    · rw [Message.version, k.message_frame p rest]
    · rw [Message.sequence, k.message_frame p rest]

/-- A welcome of version 1, and its last byte cut off. -/
theorem control_messages_decode_welcome :
    Class.welcome.read (Class.welcome.frame 1 7 ⟨3, 4096⟩ ++ [0]) = some ⟨3, 4096⟩ ∧
      Class.hello.read (Class.welcome.frame 1 7 ⟨3, 4096⟩ ++ [0]) = none ∧
      Class.welcome.read ((Class.welcome.frame 1 7 ⟨3, 4096⟩).take 23) = none := by
  obtain ⟨-, -, hframe, hcut⟩ := control_messages_decode .welcome
  obtain ⟨hread, -, -, -, hother⟩ := hframe 1 7 ⟨3, 4096⟩ [0] (by decide)
  exact ⟨hread, hother .hello (by decide), hcut 1 7 ⟨3, 4096⟩ 23 (by decide) .welcome⟩

end Cme.Protocol
