import ProtobufEdit.Splice.Groupless.Asks

/-!
# The splicer's recursive reference

`reference` transforms a document record by record: each verdict's piece, and for a committed
container the transformed interior behind its settled prefix.
-/

namespace ProtobufEdit.Splice.Groupless

open Wire ProtobufEdit.Path Cursor Cursor.Groupless Base128 Loop TwoPass

/-! ## The reference -/

/-- What a verdict says of its record; `author` is the bytes standing behind the source tag. -/
inductive Verdict where
  | keep
  | author (bytes : List UInt8)
  | drop
  | insert (bytes : List UInt8)
  | commit (tail : List UInt8)
  deriving DecidableEq, Repr

def Scalar.verdict {ν : Type} (spell : ν → List UInt8) : Scalar ν → Verdict
  | .keep => .keep
  | .rewrite value => .author (spell value)
  | .drop => .drop
  | .insert bytes => .insert bytes

def Len.verdict : Len → Verdict
  | .pass => .keep
  | .commit tail => .commit (tail.getD [])
  | .replace bytes => .author (minimal bytes.length ++ bytes)
  | .drop => .drop
  | .insert bytes => .insert bytes

section Reference

variable {σ : Type}

def Rule.verdict (rule : Rule σ) (s : σ) (ask : Ask) : Verdict × σ :=
  match ask.value with
  | .varint value =>
    let (answer, s) := rule.onVarint s ask.head ask.field value
    (Scalar.verdict (fun word : UInt64 => minimal word.toNat) answer, s)
  | .i32 bits =>
    let (answer, s) := rule.onI32 s ask.head ask.field bits
    (Scalar.verdict Word.bytes (answer.map .w32), s)
  | .i64 bits =>
    let (answer, s) := rule.onI64 s ask.head ask.field bits
    (Scalar.verdict Word.bytes (answer.map .w64), s)
  | .len payload =>
    let (answer, s) := rule.onLen s ask.head ask.field payload
    (Len.verdict answer, s)

/-- The state a rule is in behind some asks. -/
def Rule.replay (rule : Rule σ) (s : σ) (asks : List Ask) : σ :=
  asks.foldl (fun s ask => (rule.verdict s ask).2) s

/-- What a verdict other than a commit leaves of its record. -/
def Verdict.piece (r : Record) : Verdict → List UInt8
  | .keep => r.bytes
  | .author bytes => r.tag ++ bytes
  | .drop => []
  | .insert bytes => bytes ++ r.bytes
  | .commit _ => []

/-- A committed container around its new interior. -/
def enclosed (tag word payload interior : List UInt8) : List UInt8 :=
  tag ++ settledPrefix word payload.length interior.length ++ interior

/-- What some records come to: the asks they take, the rule behind them, and their bytes, unless
the walk refuses them. -/
structure Told (σ : Type) where
  asks : List Ask
  rule : σ
  out : Option (List UInt8)

/-- Told behind some asks and a piece of output. -/
def Told.behind (t : Told σ) (asks : List Ask) (piece : List UInt8) : Told σ :=
  ⟨asks ++ t.asks, t.rule, t.out.map (piece ++ ·)⟩

/-- The transformer of a rule's verdicts, over the records from `head` on. -/
def reference (rule : Rule σ) (standard : Standard) (remaining head : Nat) (bytes : List UInt8)
    (s : σ) : Told σ :=
  match _hf : first standard bytes with
  | none => ⟨[], s, if bytes = [] then some [] else none⟩
  | some (r, rest) =>
    let ask : Ask := ⟨head, r.field, r.payload.value⟩
    match rule.verdict s ask with
    | (.commit tail, s) =>
      match _hp : r.payload, remaining with
      | .len word payload, remaining' + 1 =>
        let interior := reference rule standard remaining'
          (head + r.tag.length + word.length) payload s
        match interior.out with
        | none => ⟨ask :: interior.asks, interior.rule, none⟩
        | some body =>
          (reference rule standard remaining (head + r.bytes.length) rest interior.rule).behind
            (ask :: interior.asks) (enclosed r.tag word payload (body ++ tail))
      | _, _ => ⟨[ask], s, none⟩
    | (verdict, s) =>
      (reference rule standard remaining (head + r.bytes.length) rest s).behind [ask]
        (verdict.piece r)
termination_by bytes.length
decreasing_by
  · exact first_payload_lt _hf _hp
  · exact first_rest_lt _hf
  · exact first_rest_lt _hf

variable {rule : Rule σ} {standard : Standard} {remaining head : Nat} {bytes rest : List UInt8}
  {r : Record} {s s' : σ} {verdict : Verdict} {tail word payload body : List UInt8}

theorem reference_nil : reference rule standard remaining head [] s = ⟨[], s, some []⟩ := by
  rw [reference]
  split
  case h_1 => rfl
  case h_2 hf => rw [first_nil] at hf; cases hf

theorem reference_stuck (hf : first standard bytes = none) (hne : bytes ≠ []) :
    reference rule standard remaining head bytes s = ⟨[], s, none⟩ := by
  rw [reference]
  split
  case h_1 => rw [if_neg hne]
  case h_2 hf' => rw [hf] at hf'; cases hf'

theorem reference_piece (hf : first standard bytes = some (r, rest))
    (hv : rule.verdict s ⟨head, r.field, r.payload.value⟩ = (verdict, s'))
    (hc : ∀ tail, verdict ≠ .commit tail) :
    reference rule standard remaining head bytes s =
      (reference rule standard remaining (head + r.bytes.length) rest s').behind
        [⟨head, r.field, r.payload.value⟩] (verdict.piece r) := by
  rw [reference]
  split
  case h_1 hf' => rw [hf] at hf'; cases hf'
  case h_2 hf' =>
    rw [hf] at hf'
    cases hf'
    simp only [hv]

/-- A commit past the budget. -/
theorem reference_wall (hf : first standard bytes = some (r, rest))
    (hv : rule.verdict s ⟨head, r.field, r.payload.value⟩ = (.commit tail, s')) :
    reference rule standard 0 head bytes s = ⟨[⟨head, r.field, r.payload.value⟩], s', none⟩ := by
  rw [reference]
  split
  case h_1 hf' => rw [hf] at hf'; cases hf'
  case h_2 hf' =>
    rw [hf] at hf'
    cases hf'
    simp only [hv]
    split
    case h_1 hz => cases hz
    case h_2 => rfl

/-- What stands behind a committed container's ask: its interior, then the records behind it. -/
def Told.entered (interior : Told σ) (ask : Ask) (tag word payload tail : List UInt8)
    (behind : σ → Told σ) : Told σ :=
  match interior.out with
  | none => ⟨ask :: interior.asks, interior.rule, none⟩
  | some body =>
    (behind interior.rule).behind (ask :: interior.asks) (enclosed tag word payload (body ++ tail))

theorem reference_commit (hf : first standard bytes = some (r, rest))
    (hp : r.payload = .len word payload)
    (hv : rule.verdict s ⟨head, r.field, r.payload.value⟩ = (.commit tail, s')) :
    reference rule standard (remaining + 1) head bytes s =
      (reference rule standard remaining (head + r.tag.length + word.length) payload s').entered
        ⟨head, r.field, r.payload.value⟩ r.tag word payload tail
        (reference rule standard (remaining + 1) (head + r.bytes.length) rest) := by
  rw [reference]
  split
  case h_1 hf' => rw [hf] at hf'; cases hf'
  case h_2 hf' =>
    rw [hf] at hf'
    cases hf'
    simp only [hv]
    split
    case h_1 hp' hz =>
      rw [hp] at hp'
      cases hp'
      cases hz
      rfl
    case h_2 hno => exact absurd rfl (hno _ _ _ hp)

theorem len_verdict_commit {answer : Len} {tail : List UInt8}
    (h : Len.verdict answer = .commit tail) :
    ∃ staged, answer = .commit staged ∧ staged.getD [] = tail := by
  cases answer <;> cases h
  exact ⟨_, rfl, rfl⟩

theorem scalar_verdict_ne {ν : Type} {spell : ν → List UInt8} (answer : Scalar ν)
    (tail : List UInt8) : Scalar.verdict spell answer ≠ .commit tail := by
  cases answer <;> exact nofun

/-- Only LEN records are committed. -/
theorem len_of_verdict
    (hv : rule.verdict s ⟨head, r.field, r.payload.value⟩ = (.commit tail, s')) :
    ∃ word payload, r.payload = .len word payload := by
  cases hp : r.payload with
  | len word payload => exact ⟨word, payload, rfl⟩
  | _ =>
    simp only [Rule.verdict, hp, Payload.value] at hv
    exact absurd (Prod.mk.inj hv).1 (scalar_verdict_ne _ _)

/-! A rule's states seen as another's, which answers alike, leave the reference what it is. -/

variable {τ : Type} {f : σ → τ} {rule' : Rule τ}

def Told.map (f : σ → τ) (t : Told σ) : Told τ := ⟨t.asks, f t.rule, t.out⟩

theorem verdict_map (h : rule.Projects f rule') (s : σ) (ask : Ask) :
    rule'.verdict (f s) ask = ((rule.verdict s ask).1, f (rule.verdict s ask).2) := by
  unfold Rule.verdict
  cases ask.value with
  | varint value => simp only [h.onVarint]
  | i32 bits => simp only [h.onI32]
  | i64 bits => simp only [h.onI64]
  | len payload => simp only [h.onLen]

theorem reference_map (h : rule.Projects f rule') (remaining head : Nat) (bytes : List UInt8)
    (s : σ) :
    reference rule' standard remaining head bytes (f s)
      = (reference rule standard remaining head bytes s).map f := by
  induction hn : bytes.length using Nat.strong_induction_on generalizing remaining head bytes s with
  | _ n ih =>
  subst hn
  by_cases hne : bytes = []
  · rw [hne, reference_nil, reference_nil]
    rfl
  cases hf : first standard bytes with
  | none =>
    rw [reference_stuck hf hne, reference_stuck hf hne]
    rfl
  | some p =>
    obtain ⟨r, rest⟩ := p
    have hrest (remaining head : Nat) (s : σ) :=
      ih rest.length (first_rest_lt hf) remaining head rest s rfl
    rcases hv : rule.verdict s ⟨head, r.field, r.payload.value⟩ with ⟨verdict, s'⟩
    have hv' := verdict_map h s ⟨head, r.field, r.payload.value⟩
    rw [hv] at hv'
    by_cases hc : ∃ tail, verdict = .commit tail
    case neg =>
      rw [reference_piece hf hv (fun tail e => hc ⟨tail, e⟩),
        reference_piece hf hv' (fun tail e => hc ⟨tail, e⟩), hrest]
      rfl
    case pos =>
      obtain ⟨tail, rfl⟩ := hc
      obtain ⟨word, payload, hp⟩ := len_of_verdict hv
      cases remaining with
      | zero =>
        rw [reference_wall hf hv, reference_wall hf hv']
        rfl
      | succ remaining =>
        rw [reference_commit hf hp hv, reference_commit hf hp hv',
          ih payload.length (first_payload_lt hf hp) _ _ payload s' rfl]
        unfold Told.entered
        cases hout : (reference rule standard remaining (head + r.tag.length + word.length) payload
          s').out with
        | none => simp only [Told.map, hout]
        | some body =>
          simp only [Told.map, hout, hrest]
          rfl

end Reference

end ProtobufEdit.Splice.Groupless
