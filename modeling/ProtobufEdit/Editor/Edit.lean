import ProtobufEdit.Editor.Layer

/-!
# The edits commanded

What each command makes of the document, given what the editor answered.
-/

namespace ProtobufEdit.Editor

open Wire Wire.Grouped Arena

/-- Where a LEN's body stands in the bytes the record was met in. -/
def Entry.bodyAt (e : Entry) : Nat :=
  e.pos + e.met.elim 0 fun met => met.tag.length + met.delim.length

/-- The chunks a frame took. -/
def Machine.Framed.staged (f : Machine.Framed) (chunks : List (List UInt8)) : List UInt8 :=
  (((chunks.zip f.writes).filter fun w => w.2.isOk).map Prod.fst).flatten

namespace Doc

def setWord (value : Nat) (e : Entry) : Entry := { e with content := .word value }

def setPayload (bytes : List UInt8) (e : Entry) : Entry := { e with content := .payload bytes }

def setDeleted (e : Entry) : Entry := { e with deleted := true }

/-- A minted record put at an anchor. -/
def put (d : Doc) (anchor : InsertAt) (handle : Nat) (e : Entry) : Doc :=
  d.insert (d.gap anchor) handle e .nil

/-- A record's interior read, its records named from `first` on. -/
noncomputable def descended (dialect : Dialect) (standard : Standard) (limit : DepthLimit)
    (d : Doc) (handle : Nat) (first : Option Nat) : Doc :=
  match Forest.find handle d with
  | none => d
  | some e =>
    if e.opened then d
    else
      let room := limit.asInner - (Forest.path handle d).length
      let layer := layerOf dialect standard room (e.met.elim [] Met.content)
      d.reveal handle ((layer.forest standard (first.getD 0) e.bodyAt).map Node.entry)

/-- The document behind a command: what an accepted one says, and a refused one nothing. -/
noncomputable def edit (dialect : Dialect) (standard : Standard) (limit : DepthLimit) (d : Doc) :
    Command → Except EditFault Reply → Doc
  | _, .error _ => d
  | .descend handle, .ok (.descent (.opened first)) =>
    d.descended dialect standard limit handle first
  | .setVarint handle value, .ok _ => d.modify handle (setWord value.toNat)
  | .setI32 handle bits, .ok _ => d.modify handle (setWord bits.toNat)
  | .setI64 handle bits, .ok _ => d.modify handle (setWord bits.toNat)
  | .setPayload handle supply, .ok _ => d.modify handle (setPayload supply.bytes)
  | .delete handle, .ok _ => d.modify handle setDeleted
  | .insertVarint anchor field value, .ok (.minted id) =>
    d.put anchor id (.authored field .varint (.word value.toNat))
  | .insertI32 anchor field bits, .ok (.minted id) =>
    d.put anchor id (.authored field .i32 (.word bits.toNat))
  | .insertI64 anchor field bits, .ok (.minted id) =>
    d.put anchor id (.authored field .i64 (.word bits.toNat))
  | .insertPayload anchor field supply, .ok (.minted id) =>
    d.put anchor id (.authored field .len (.payload supply.bytes))
  | .insertGroup anchor field, .ok (.minted id) =>
    d.put anchor id (.authored field .group .kept)
  | .frame (.set handle) _ chunks true, .ok (.framed f) =>
    d.modify handle (setPayload (f.staged chunks))
  | .frame (.insert anchor field) _ chunks true, .ok (.framed ⟨writes, some id⟩) =>
    d.put anchor id
      (.authored field .len (.payload (Machine.Framed.staged ⟨writes, some id⟩ chunks)))
  | _, _ => d

end Doc

end ProtobufEdit.Editor
