import ProtobufEdit.Splice

/-!
# The sink back-end

The sink face's back-end builds a sparse overlay in source order and hands its windows over in one
fold, once the walk has succeeded. A committed container's prefix is claimed at the first edit under
it, peeled out of the pending run, and filled at the close.
-/

namespace ProtobufEdit.Splice

open Wire Varint Base128 TwoPass

/-! ## The overlay -/

/-- One overlay instruction; the fold never sees a `hole`, a committed container's claimed prefix
slot. -/
inductive Op where
  | src (start stop : Nat)
  | staged (pos len : Nat)
  | word (word : Nat)
  | hole
  deriving DecidableEq, Repr

/-- One committed container's plan state. `op` is its claimed hole's index, `none` while the subtree
is still clean. -/
structure Frame where
  total : Nat
  head : Nat
  tagEnd : Nat
  payloadStart : Nat
  op : Option Nat
  tailAt : Nat
  tailLen : Nat
  deriving DecidableEq, Repr

/-- `frames` stands outermost first, the first `claimed` of them claimed; `run` is the pending
verbatim extent. -/
structure Plan where
  input : List UInt8
  ops : List Op
  staging : List UInt8
  frames : List Frame
  claimed : Nat
  run : Option (Nat × Nat)
  total : Nat
  deriving DecidableEq, Repr

namespace Plan

def new (input : List UInt8) : Plan := ⟨input, [], [], [], 0, none, 0⟩

/-- The eager cap judgment. -/
def admitGrow (grow : Nat) (p : Plan) : Did Plan :=
  if p.total + grow > PayloadLen.max then (.error (.outgrown (p.total + grow)), p)
  else (.ok (), { p with total := p.total + grow })

/-- Accounts `grow` bytes into the innermost committed container's interior. -/
def account (grow : Nat) (p : Plan) : Plan :=
  match p.frames.getLast? with
  | some frame =>
    { p with frames := p.frames.dropLast ++ [{ frame with total := frame.total + grow }] }
  | none => p

def flush (p : Plan) : Plan :=
  match p.run with
  | some (start, stop) =>
    if start < stop then { p with ops := p.ops ++ [.src start stop], run := none }
    else { p with run := none }
  | none => p

/-- Extends the pending run, coalescing contiguous extents. -/
def ride (start stop : Nat) (p : Plan) : Plan :=
  match p.run with
  | some (from', last) =>
    if last = start then { p with run := some (from', stop) }
    else { p.flush with run := some (start, stop) }
  | none => { p with run := some (start, stop) }

/-- Claims one still-clean ancestor: its prefix leaves the pending run for a hole. -/
def claim (index : Nat) (p : Plan) : Plan :=
  match p.frames[index]?, p.run with
  | some frame, some (start, stop) =>
    let ops := if start < frame.tagEnd then p.ops ++ [.src start frame.tagEnd] else p.ops
    { p with
      ops := ops ++ [.hole]
      frames := p.frames.set index { frame with op := some ops.length }
      run := some (frame.payloadStart, stop) }
  | _, _ => p

/-- Claims the ancestors from `index` on, outermost first. -/
def claims (index : Nat) : Nat → Plan → Plan
  | 0, p => p
  | count + 1, p => claims (index + 1) count (p.claim index)

/-- Claims every still-clean committed ancestor. -/
def materialize (p : Plan) : Plan :=
  { claims p.claimed (p.frames.length - p.claimed) p with claimed := p.frames.length }

/-- An authored emission's shared entry. -/
def edit (bytes : List UInt8) (p : Plan) : Did Plan :=
  (p.admitGrow bytes.length).andThen fun p =>
    let p := p.materialize.flush
    (.ok (), ({ p with
      staging := p.staging ++ bytes
      ops := p.ops ++ [.staged p.staging.length bytes.length] } : Plan).account bytes.length)

def verbatim (start stop : Nat) (p : Plan) : Did Plan :=
  (p.admitGrow (stop - start)).andThen fun p => (.ok (), (p.ride start stop).account (stop - start))

def author (bytes : List UInt8) (p : Plan) : Did Plan := p.edit bytes

def authorVarint (word : Nat) (p : Plan) : Did Plan := p.edit (emit64 word)

/-- The dropped extent breaks the pending run by itself, but the ancestors' interiors shrank. -/
def dirty (p : Plan) : Plan := p.materialize

/-- A commit's tail is admitted and staged at the ask, ahead of its emission at the close. -/
def stage (tail : Option (List UInt8)) (p : Plan) : Did Plan :=
  match tail with
  | some bytes => (p.admitGrow bytes.length).andThen fun p =>
      (.ok (), { p with staging := p.staging ++ bytes })
  | none => (.ok (), p)

def commit (head tagEnd payloadStart : Nat) (tail : Option (List UInt8)) (p : Plan) : Did Plan :=
  (p.admitGrow (payloadStart - head)).andThen fun p =>
    let tailAt := match tail with
      | some _ => p.staging.length
      | none => 0
    (p.stage tail).andThen fun p =>
      let p := p.ride head payloadStart
      (.ok (), { p with frames := p.frames ++
        [⟨0, head, tagEnd, payloadStart, none, tailAt, (tail.getD []).length⟩] })

/-- The close of a claimed container: the tail's instruction, then the prefix into its slot. -/
def fill (oldLen : Nat) (frame : Frame) (op : Nat) (p : Plan) : Did Plan :=
  let p := if frame.tailLen > 0 then
      { p.flush with ops := p.flush.ops ++ [.staged frame.tailAt frame.tailLen] }
    else p
  let interior := if frame.tailLen > 0 then frame.total + frame.tailLen else frame.total
  let newLen := interior % 2 ^ 32
  let met := frame.payloadStart - frame.tagEnd
  if newLen = oldLen then
    (.ok (), ({ p with ops := p.ops.set op (.src frame.tagEnd frame.payloadStart) } : Plan).account
      (frame.tagEnd - frame.head + met + interior))
  else
    let need := encodedLen32 newLen
    let p := { p with ops := p.ops.set op (.word newLen) }
    let judged : Did Plan :=
      if need > met then p.admitGrow (need - met)
      else (.ok (), { p with total := p.total - (met - need) })
    judged.andThen fun p =>
      (.ok (), p.account (frame.tagEnd - frame.head + need + interior))

/-- The innermost frame leaves the stack; `undefined` is a close without its commit. -/
def pop (oldLen : Nat) (p : Plan) : Did Plan :=
  match p.frames.getLast? with
  | none => (.error .undefined, p)
  | some frame =>
    let frames := p.frames.dropLast
    let p := { p with frames, claimed := min p.claimed frames.length }
    match frame.op with
    -- a clean subtree rides inside the pending run
    | none => (.ok (), p.account (frame.payloadStart - frame.head + frame.total))
    | some op => p.fill oldLen frame op

/-- A tail dirties its container, which is then claimed before it closes. -/
def close (oldLen : Nat) (p : Plan) : Did Plan :=
  match p.frames.getLast? with
  | some frame =>
    if p.frames.length > p.claimed ∧ frame.tailLen > 0 then p.materialize.pop oldLen
    else p.pop oldLen
  | none => p.pop oldLen

def back : Back Plan where
  verbatim := verbatim
  author := author
  authorVarint := authorVarint
  dirty := dirty
  commit := commit
  close := close

end Plan

/-! ## The fold -/

/-- `xs[start..stop]`; `none` is its panic. -/
def slice (xs : List UInt8) (start stop : Nat) : Option (List UInt8) :=
  if start ≤ stop ∧ stop ≤ xs.length then some ((xs.drop start).take (stop - start)) else none

/-- What the sink is handed for an instruction; `none` is a panic. -/
def Op.window (input staging : List UInt8) : Op → Option (List UInt8)
  | .src start stop => slice input start stop
  | .staged pos len => slice staging pos (pos + len)
  | .word value => some (emit64 value)
  | .hole => none

namespace Plan

/-- The windows handed to the sink, empty ones left out, and whether the fold got to its end. -/
def hand (input staging : List UInt8) : List Op → Bool × List (List UInt8)
  | [] => (true, [])
  | op :: ops =>
    match op.window input staging with
    | none => (false, [])
    | some bytes =>
      let (sound, windows) := hand input staging ops
      (sound, if bytes.isEmpty then windows else bytes :: windows)

/-- The pending run, after the instructions. -/
def handRun (input : List UInt8) : Option (Nat × Nat) → Bool × List (List UInt8)
  | none => (true, [])
  | some (start, stop) =>
    if start < stop then
      match slice input start stop with
      | none => (false, [])
      | some bytes => (true, [bytes])
    else (true, [])

/-- Hands the sealed overlay over in source order; `false` is a panic, the assertion over the
account among them. -/
def fold (p : Plan) : Bool × List (List UInt8) :=
  match hand p.input p.staging p.ops with
  | (false, windows) => (false, windows)
  | (true, windows) =>
    match handRun p.input p.run with
    | (false, _) => (false, windows)
    | (true, last) =>
      ((windows ++ last).flatten.length == p.total, windows ++ last)

/-- The claimed slots still unfilled, by their index. -/
def unfilled (index : Nat) : List Op → List Nat
  | [] => []
  | .hole :: ops => index :: unfilled (index + 1) ops
  | _ :: ops => unfilled (index + 1) ops

end Plan

end ProtobufEdit.Splice
