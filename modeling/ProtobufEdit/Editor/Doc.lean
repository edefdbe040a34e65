import ProtobufEdit.Cursor
import ProtobufEdit.Editor.Save

/-!
# Edited documents

What an editor's machine stands for: the forest of its records, each with the spelling it was
met in and what was commanded of it, and what a save of that forest emits.
-/

namespace ProtobufEdit.Editor

open Wire Wire.Grouped Varint Base128 Arena

/-! ## Records -/

/-- The spelling a record was met in: `delim` is a LEN's prefix, a group's end tag. -/
structure Met where
  tag : List UInt8
  delim : List UInt8
  content : List UInt8
  deriving DecidableEq, Repr

def Met.verbatim (kind : RecordKind) (met : Met) : List UInt8 :=
  match kind with
  | .group => met.tag ++ met.content ++ met.delim
  | _ => met.tag ++ met.delim ++ met.content

/-- What was made of a record's value side. -/
inductive Content where
  | kept
  | word (value : Nat)
  | payload (bytes : List UInt8)
  deriving DecidableEq, Repr

/-- A record of the document: an authored one was never met, an `opened` one has its interior
known, and a `spliced` one was put where it stands by a command. `pos` is where the spelling
stands in the bytes it was met in. -/
structure Entry where
  field : FieldNumber
  kind : RecordKind
  pos : Nat
  met : Option Met
  content : Content
  deleted : Bool
  opened : Bool
  spliced : Bool
  deriving DecidableEq, Repr

abbrev Doc := Forest Entry

def valueBytes (kind : RecordKind) (value : Nat) : List UInt8 :=
  match kind with
  | .varint => minimal value
  | .i32 => toLeBytes 4 value
  | _ => toLeBytes 8 value

namespace Entry

def scanned (field : FieldNumber) (kind : RecordKind) (pos : Nat) (met : Met) : Entry :=
  ⟨field, kind, pos, some met, .kept, false, kind == .group, false⟩

def authored (field : FieldNumber) (kind : RecordKind) (content : Content) : Entry :=
  ⟨field, kind, 0, none, content, false, kind == .group, true⟩

def verbatim (e : Entry) : List UInt8 := e.met.elim [] (Met.verbatim e.kind)

def tagBytes (e : Entry) : List UInt8 :=
  match e.met with
  | some met => met.tag
  | none => minimal (headWord e.field e.kind)

/-- The prefix of a body of `len` bytes: the source's where the length is the source's. -/
def prefixBytes (e : Entry) (len : Nat) : List UInt8 :=
  match e.met with
  | some met => if len = met.content.length then met.delim else minimal len
  | none => minimal len

def endBytes (e : Entry) : List UInt8 :=
  match e.met with
  | some met => met.delim
  | none => minimal (groupEndWord e.field)

/-- A command was given on the record itself. -/
def edited (e : Entry) : Bool := e.deleted || e.met.isNone || e.content != .kept

/-- The emission of a record, given its interior's; `below` says that the interior holds an
edit. -/
def settled (e : Entry) (below : Bool) (inner : Except SaveFault (List UInt8)) :
    Except SaveFault (List UInt8) :=
  if e.deleted then .ok []
  else if e.edited = false ∧ below = false then .ok e.verbatim
  else
    match e.content with
    | .word value => .ok (e.tagBytes ++ valueBytes e.kind value)
    | .payload bytes => .ok (e.tagBytes ++ e.prefixBytes bytes.length ++ bytes)
    | .kept =>
      match e.kind with
      | .len =>
        inner.bind fun body =>
          if PayloadLen.max < body.length then .error (.bodyOverCap e.pos)
          else .ok (e.tagBytes ++ e.prefixBytes body.length ++ body)
      | .group => inner.map fun body => e.tagBytes ++ body ++ e.endBytes
      | _ => .ok e.verbatim

end Entry

namespace Doc

/-! ## Emission -/

/-- Some record of the forest was edited, or put there. -/
def touched : Doc → Bool
  | .nil => false
  | .node _ e kids rest => e.spliced || e.edited || touched kids || touched rest

/-- The reference emission. -/
def emitted : Doc → Except SaveFault (List UInt8)
  | .nil => .ok []
  | .node _ e kids rest =>
    (e.settled (touched kids) (emitted kids)).bind fun here =>
      (emitted rest).map fun behind => here ++ behind

def saved (d : Doc) : Saved :=
  match emitted d with
  | .error fault => .refused fault
  | .ok out =>
    if PayloadLen.max < out.length then .refused (.docOverCap out.length) else .saved out

/-- The bytes the records were met in, less those that were put there. -/
def source : Doc → List UInt8
  | .nil => []
  | .node _ e _ rest => (if e.spliced then [] else e.verbatim) ++ source rest

/-! ## Edits -/

def modify (d : Doc) (handle : Nat) (f : Entry → Entry) : Doc :=
  d.graft handle (fun e kids rest => .node handle (f e) kids rest) id

/-- A gap: at the head of a container's chain, or behind a sibling. -/
inductive Gap where
  | head (container : Option Nat)
  | behind (sibling : Nat)
  deriving DecidableEq, Repr

/-- The gap an anchor names: a tail is the gap behind the last record there is. -/
def gap (d : Doc) : InsertAt → Gap
  | .headOf container => .head container
  | .after sibling => .behind sibling
  | .tailOf container =>
    let chain := container.elim (some d) fun c => Forest.kidsOf c d
    ((chain.bind Forest.last).map Gap.behind).getD (.head container)

/-- Puts a record, with what it holds, in a gap: in front of what was put there before. -/
def insert (d : Doc) (gap : Gap) (handle : Nat) (e : Entry) (inner : Doc) : Doc :=
  match gap with
  | .head none => .node handle e inner d
  | .head (some c) => d.graft c (fun b kids rest => .node c b (.node handle e inner kids) rest) id
  | .behind s => d.graft s (fun b kids rest => .node s b kids (.node handle e inner rest)) id

/-- A record's interior becomes known. -/
def reveal (d : Doc) (handle : Nat) (inner : Doc) : Doc :=
  d.graft handle (fun e _ rest => .node handle { e with opened := true } inner rest) id

end Doc

end ProtobufEdit.Editor
