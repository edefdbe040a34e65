import ProtobufEdit.Cursor

/-!
# The value-side constructor

Every push charges the account first, then its bytes enter a replay program: encoded words
land in an owned store under runs, long payloads register as borrows, and a LEN frame holds a
placeholder that its close patches with the body's length. The finish replays the program.
-/

namespace ProtobufEdit.Construct

open Wire Varint

/-! ## The core -/

/-- The construction cap: `i32::MAX` bytes. -/
def cap : Nat := PayloadLen.max

/-- The cap break: the innermost open frame's field, and the first sum past the cap. -/
structure OverCap where
  field : Option FieldNumber
  len : Nat
  deriving DecidableEq, Repr

/-- What a core keeps its payloads by: `mint` names a borrow-table entry, and where there is
none every payload copies into the owned store. -/
structure Backing where
  At : Type
  mint : Option (Nat → At)
  index : At → Nat

/-- `Core`, whose long payloads stay borrowed until the finish. -/
def Backing.mixed : Backing := ⟨Nat, some id, id⟩

/-- `CopyCore`, which has no borrow table. -/
def Backing.copy : Backing := ⟨Empty, none, Empty.elim⟩

/-- One step of the replay program. -/
inductive Event (backing : Backing) where
  | owned (run : Nat)
  | borrowed (slot : backing.At)
  | len (body width : Nat)

/-- An open frame; `start` and `startTotal` are the LEN patch coordinates. -/
structure Frame where
  head : Nat
  start : Nat
  startTotal : Nat
  deriving DecidableEq, Repr

/-- `stack` stands innermost first. -/
structure Core (backing : Backing) where
  owned : List UInt8
  borrows : List (List UInt8)
  events : List (Event backing)
  stack : List Frame
  total : Nat
  overCap : Option OverCap

/-- The owned run at the program's end extended, or a new one. -/
def extendRun {backing : Backing} (events : List (Event backing)) (bytes : Nat) :
    List (Event backing) :=
  match events.getLast? with
  | some (.owned run) => events.dropLast ++ [.owned (run + bytes)]
  | _ => events ++ [.owned bytes]

namespace Core

variable {backing : Backing}

def new : Core backing := ⟨[], [], [], [], 0, none⟩

def poisonOverCap (c : Core backing) (len : Nat) : Core backing :=
  { c with overCap := some ⟨c.stack.head?.bind fun frame => FieldNumber.fromWord frame.head, len⟩ }

/-- Charges bytes against the cap; `false` means they must not move. -/
def account (c : Core backing) (bytes : Nat) : Bool × Core backing :=
  if c.overCap.isSome then (false, c)
  else if cap < c.total + bytes then (false, c.poisonOverCap (c.total + bytes))
  else (true, { c with total := c.total + bytes })

def pushRun (c : Core backing) (bytes : Nat) : Core backing :=
  { c with events := extendRun c.events bytes }

/-- Bytes of a known width charged, and staged as owned literals. -/
def stage (c : Core backing) (width : Nat) (bytes : List UInt8) : Core backing :=
  match c.account width with
  | (false, c) => c
  | (true, c) => { c.pushRun width with owned := c.owned ++ bytes }

/-! ### Records -/

def putVarint (c : Core backing) (head value : Nat) : Core backing :=
  c.stage (encodedLen64 head + encodedLen64 value) (emit64 head ++ emit64 value)

def putI32 (c : Core backing) (head bits : Nat) : Core backing :=
  c.stage (encodedLen64 head + 4) (emit64 head ++ toLeBytes 4 bits)

def putI64 (c : Core backing) (head bits : Nat) : Core backing :=
  c.stage (encodedLen64 head + 8) (emit64 head ++ toLeBytes 8 bits)

def putLenCopy (c : Core backing) (head : Nat) (payload : List UInt8) : Core backing :=
  c.stage (encodedLen64 head + encodedLen64 payload.length + payload.length)
    (emit64 head ++ emit64 payload.length ++ payload)

/-- `BORROW_MIN`. -/
def borrowMin : Nat := 64

/-- A non-empty run of caller bytes, already charged: a borrow if it is long. -/
def keep (c : Core backing) (mint : Nat → backing.At) (bytes : List UInt8) : Core backing :=
  if borrowMin ≤ bytes.length then
    { c with
      borrows := c.borrows ++ [bytes]
      events := c.events ++ [.borrowed (mint c.borrows.length)] }
  else { c.pushRun bytes.length with owned := c.owned ++ bytes }

/-- The LEN door. The copy machine's is `put_len_copy`. -/
def putLen (c : Core backing) (head : Nat) (payload : List UInt8) : Core backing :=
  match backing.mint with
  | none => c.putLenCopy head payload
  | some mint =>
    match c.account (encodedLen64 head + encodedLen64 payload.length + payload.length) with
    | (false, c) => c
    | (true, c) =>
      let c := { c.pushRun (encodedLen64 head + encodedLen64 payload.length) with
        owned := c.owned ++ emit64 head ++ emit64 payload.length }
      if payload = [] then c else c.keep mint payload

/-! ### Raw words -/

def putRawVarint (c : Core backing) (value : Nat) : Core backing :=
  c.stage (encodedLen64 value) (emit64 value)

def putRawI32 (c : Core backing) (bits : Nat) : Core backing := c.stage 4 (toLeBytes 4 bits)

def putRawI64 (c : Core backing) (bits : Nat) : Core backing := c.stage 8 (toLeBytes 8 bits)

/-- Empty appends are no-ops. -/
def putRawBytesCopy (c : Core backing) (bytes : List UInt8) : Core backing :=
  if bytes = [] then c else c.stage bytes.length bytes

/-- The raw-bytes door. The copy machine's is `put_raw_bytes_copy`. -/
def putRawBytes (c : Core backing) (bytes : List UInt8) : Core backing :=
  match backing.mint with
  | none => c.putRawBytesCopy bytes
  | some mint =>
    if bytes = [] then c
    else
      match c.account bytes.length with
      | (false, c) => c
      | (true, c) => c.keep mint bytes

/-! ### Packed families -/

/-- A count past the cap breaks it before the sum walk. -/
def putPackedVarints (c : Core backing) (head : Nat) (words : List Nat) : Core backing :=
  if cap < words.length then (c.account words.length).2
  else
    let body := (words.map encodedLen64).sum
    c.stage (encodedLen64 head + encodedLen64 body + body)
      (emit64 head ++ emit64 body ++ words.flatMap emit64)

/-- The fixed-width families, by their width. -/
def putPackedFixed (width : Nat) (c : Core backing) (head : Nat) (words : List Nat) :
    Core backing :=
  let body := width * words.length
  c.stage (encodedLen64 head + encodedLen64 body + body)
    (emit64 head ++ emit64 body ++ words.flatMap (toLeBytes width))

def putPackedFixed32 (c : Core backing) (head : Nat) (words : List Nat) : Core backing :=
  putPackedFixed 4 c head words

def putPackedFixed64 (c : Core backing) (head : Nat) (words : List Nat) : Core backing :=
  putPackedFixed 8 c head words

/-! ### Frames -/

/-- Opens a LEN frame: the head now, a placeholder for the prefix. The frame pushes on a
poisoned program too. -/
def beginLen (c : Core backing) (head : Nat) : Core backing :=
  match c.account (encodedLen64 head) with
  | (false, c) => { c with stack := ⟨head, 0, c.total⟩ :: c.stack }
  | (true, c) =>
    let c := { c.pushRun (encodedLen64 head) with owned := c.owned ++ emit64 head }
    { c with
      events := c.events ++ [.len 0 1]
      stack := ⟨head, c.events.length, c.total⟩ :: c.stack }

/-- Closes the innermost LEN frame, which `beginLen` pushed: the body's length is the account's
growth, and its prefix is charged here. -/
def endLen (c : Core backing) : Core backing :=
  match c.stack with
  | [] => c
  | frame :: stack =>
    if c.overCap.isSome then { c with stack }
    else
      let body := c.total - frame.startTotal
      let c := (c.account (encodedLen64 body)).2
      { c with events := c.events.set frame.start (.len body (encodedLen32 body)), stack }

/-- Opens a group frame: both tags are charged, the start tag lands. -/
def beginGroup (c : Core backing) (head : Nat) : Core backing :=
  let c := match c.account (2 * encodedLen64 head) with
    | (false, c) => c
    | (true, c) => { c.pushRun (encodedLen64 head) with owned := c.owned ++ emit64 head }
  { c with stack := ⟨head, 0, c.total⟩ :: c.stack }

def endGroup (c : Core backing) (endWord : Nat) : Core backing :=
  let c := { c with stack := c.stack.tail }
  if c.overCap.isSome then c
  else { c.pushRun (encodedLen64 endWord) with owned := c.owned ++ emit64 endWord }

end Core

/-! ## Emission -/

/-- What a finish comes to. `undefined` is a read or a write outside what was accounted. -/
inductive Emission (α : Type) where
  | done (out : α)
  | overCap (e : OverCap)
  | panic
  | undefined
  deriving DecidableEq, Repr

namespace Core

variable {backing : Backing}

/-- The program's slices from an owned cursor on, and the cursor behind them. -/
def replay (c : Core backing) : Nat → List (Event backing) → Option (List (List UInt8) × Nat)
  | cursor, [] => some ([], cursor)
  | cursor, .owned run :: events =>
    if cursor + run ≤ c.owned.length then
      (c.replay (cursor + run) events).map fun (slices, last) =>
        ((c.owned.drop cursor).take run :: slices, last)
    else none
  | cursor, .borrowed slot :: events =>
    match c.borrows[backing.index slot]? with
    | none => none
    | some slice => (c.replay cursor events).map fun (slices, last) => (slice :: slices, last)
  | cursor, .len body width :: events =>
    if encodedLen32 body ≤ width ∧ width ≤ 5 then
      (c.replay cursor events).map fun (slices, last) => (write64At body width :: slices, last)
    else none

/-- What the replay is judged by first: the break, then the frames' pairing. -/
def judged {α : Type} (c : Core backing) (emit : Emission α) : Emission α :=
  match c.overCap with
  | some e => .overCap e
  | none => if c.stack = [] then emit else .panic

/-- Into a reservation of exactly the accounted total behind what `out` holds. -/
def emitInto (c : Core backing) (out : List UInt8) : Emission (List UInt8) :=
  c.judged <|
    match c.replay 0 c.events with
    | none => .undefined
    | some (slices, last) =>
      if slices.flatten.length ≠ c.total then .undefined
      else if last ≠ c.owned.length then .panic
      else .done (out ++ slices.flatten)

/-- The slices handed to a sink, in order. -/
def emitSink (c : Core backing) : Emission (List (List UInt8)) :=
  c.judged <|
    match c.replay 0 c.events with
    | none => .undefined
    | some (slices, last) => if last ≠ c.owned.length then .panic else .done slices

def finish (c : Core backing) : Emission (List UInt8) := c.emitInto []

def plannedLen (c : Core backing) : Emission Nat := c.judged (.done c.total)

end Core

/-! ## Commands -/

/-- The record faces, over wire words; `copied` is the `_copy` twin. -/
inductive Put where
  | varint (field : FieldNumber) (value : UInt64)
  | i32 (field : FieldNumber) (bits : UInt32)
  | i64 (field : FieldNumber) (bits : UInt64)
  | len (field : FieldNumber) (payload : List UInt8) (copied : Bool)
  | packedVarints (field : FieldNumber) (words : List UInt64)
  | packedFixed32 (field : FieldNumber) (words : List UInt32)
  | packedFixed64 (field : FieldNumber) (words : List UInt64)
  deriving DecidableEq, Repr

/-- The raw faces: bare words, and bytes the caller answers for. -/
inductive Raw where
  | varint (value : UInt64)
  | i32 (bits : UInt32)
  | i64 (bits : UInt64)
  | bytes (data : List UInt8) (copied : Bool)
  deriving DecidableEq, Repr

/-- A sequence of commands; frames pair by closure scope. `bytesFrame` takes its chunks. -/
inductive Script where
  | nil
  | put (p : Put) (rest : Script)
  | raw (r : Raw) (rest : Script)
  | message (field : FieldNumber) (body rest : Script)
  | bytesFrame (field : FieldNumber) (chunks : List (List UInt8 × Bool)) (rest : Script)
  | group (field : FieldNumber) (body rest : Script)
  deriving DecidableEq, Repr

section Run

variable {backing : Backing}

/-- The heads both dialects share. -/
def head (field : FieldNumber) (kind : Groupless.RecordKind) : Nat := Groupless.headWord field kind

def Put.run (c : Core backing) : Put → Core backing
  | varint field value => c.putVarint (head field .varint) value.toNat
  | i32 field bits => c.putI32 (head field .i32) bits.toNat
  | i64 field bits => c.putI64 (head field .i64) bits.toNat
  | len field payload true => c.putLenCopy (head field .len) payload
  | len field payload false => c.putLen (head field .len) payload
  | packedVarints field words => c.putPackedVarints (head field .len) (words.map UInt64.toNat)
  | packedFixed32 field words => c.putPackedFixed32 (head field .len) (words.map UInt32.toNat)
  | packedFixed64 field words => c.putPackedFixed64 (head field .len) (words.map UInt64.toNat)

def Raw.run (c : Core backing) : Raw → Core backing
  | varint value => c.putRawVarint value.toNat
  | i32 bits => c.putRawI32 bits.toNat
  | i64 bits => c.putRawI64 bits.toNat
  | bytes data true => c.putRawBytesCopy data
  | bytes data false => c.putRawBytes data

/-- `Bytes::write` copies, `Bytes::write_borrowed` borrows. -/
def writeChunk (c : Core backing) (chunk : List UInt8 × Bool) : Core backing :=
  Raw.run c (.bytes chunk.1 chunk.2)

def Script.run (c : Core backing) : Script → Core backing
  | nil => c
  | put p rest => rest.run (p.run c)
  | raw r rest => rest.run (r.run c)
  | message field body rest => rest.run (body.run (c.beginLen (head field .len))).endLen
  | bytesFrame field chunks rest =>
    rest.run (chunks.foldl writeChunk (c.beginLen (head field .len))).endLen
  | group field body rest =>
    rest.run ((body.run (c.beginGroup (Grouped.headWord field .group))).endGroup
      (Grouped.groupEndWord field))

/-- The builder after the commands. -/
def Script.build (backing : Backing) (s : Script) : Core backing := s.run .new

end Run

end ProtobufEdit.Construct
