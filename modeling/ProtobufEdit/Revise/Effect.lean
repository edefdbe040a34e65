import ProtobufEdit.Revise.Command

/-!
# What a command does

Every command either leaves the machine, writes one state on one row, puts one row somewhere,
moves one row, parses one interior, or takes one step back. A refused command leaves it.
-/

namespace ProtobufEdit.Revise

open Wire Wire.Groupless Varint Base128 Arena
open Editor (InsertAt)

namespace Edit

/-- The states of rows that a command authored. -/
def isBorn : Edit → Bool
  | inserted _ | insertedDeleted _ | sourceInserted _ | sourceInsertedDeleted _ | imported _
  | importedDeleted _ => true
  | _ => false

/-- The row whose payload speaks. -/
def designates : Edit → Option Nat
  | sourcePayload src | sourcePayloadDeleted src | sourceInserted src
  | sourceInsertedDeleted src => some src
  | _ => none

end Edit

/-! ## The store -/

/-- The store with one more payload. -/
def Store.append (s : Store) (payload : List UInt8) : Store :=
  { s with
    bytes := s.bytes ++ payload
    spans := s.spans ++ [(s.bytes.length, payload.length)] }

/-- One more value in the store, and its coordinate. -/
inductive Stored (s : Store) : RecordKind → Store → Nat → Prop where
  | varint (word : UInt64) :
      Stored s .varint { s with varints := s.varints ++ [word.toNat] } s.varints.length
  | i32 (bits : UInt32) :
      Stored s .i32 { s with bits32 := s.bits32 ++ [bits.toNat] } s.bits32.length
  | i64 (bits : UInt64) :
      Stored s .i64 { s with bits64 := s.bits64 ++ [bits.toNat] } s.bits64.length
  | len (payload : List UInt8) : payload.length ≤ PayloadLen.max →
      Stored s .len (s.append payload) s.spans.length

section Stored

variable {s s' : Store} {value : Nat}

theorem mint_eq {len : Nat} (h : mint len = some value) : value = len := by
  unfold mint at h
  split at h
  · exact (Option.some.inj h).symm
  · cases h

theorem stored_varint {word : UInt64} (h : s.pushVarint word.toNat = some (s', value)) :
    Stored s .varint s' value := by
  obtain ⟨v, hv, he⟩ := Option.map_eq_some_iff.mp h
  cases he
  exact mint_eq hv ▸ .varint word

theorem stored_i32 {bits : UInt32} (h : s.pushBits32 bits.toNat = some (s', value)) :
    Stored s .i32 s' value := by
  obtain ⟨v, hv, he⟩ := Option.map_eq_some_iff.mp h
  cases he
  exact mint_eq hv ▸ .i32 bits

theorem stored_i64 {bits : UInt64} (h : s.pushBits64 bits.toNat = some (s', value)) :
    Stored s .i64 s' value := by
  obtain ⟨v, hv, he⟩ := Option.map_eq_some_iff.mp h
  cases he
  exact mint_eq hv ▸ .i64 bits

theorem pushBytes_eq {payload : List UInt8} (h : s.pushBytes payload = some (s', value)) :
    s' = s.append payload ∧ value = s.spans.length := by
  unfold Store.pushBytes at h
  split at h
  · cases h
  · next v hv =>
    split at h
    · cases h
    · cases h
      exact ⟨rfl, mint_eq hv⟩

theorem stored_len {payload : List UInt8} (hlen : payload.length ≤ PayloadLen.max)
    (h : s.pushBytes payload = some (s', value)) : Stored s .len s' value := by
  obtain ⟨rfl, rfl⟩ := pushBytes_eq h
  exact .len payload hlen

end Stored

/-! ## Staged payloads -/

/-- A frame opened on `s` has staged `payload`. -/
def Staged (s : Store) (declared : Option Nat) (s' : Store) (payload : List UInt8) : Prop :=
  s' = { s with bytes := s.bytes ++ payload } ∧ payload.length ≤ declared.getD PayloadLen.max

section Staged

variable {s s' : Store} {declared : Option Nat} {payload : List UInt8}

theorem staged_write (h : Staged s declared s' payload) (chunk : List UInt8) :
    ∃ payload', Staged s declared (Machine.write s.stageMark declared s' chunk).1 payload' := by
  obtain ⟨rfl, hlen⟩ := h
  have htotal : (s.bytes ++ payload).length - s.bytes.length + chunk.length =
      (payload ++ chunk).length := by
    simp only [List.length_append]
    omega
  have hgrown : Staged s declared { s with bytes := s.bytes ++ payload ++ chunk } (payload ++ chunk) ↔
      (payload ++ chunk).length ≤ declared.getD PayloadLen.max := by
    refine ⟨fun h => h.2, fun h => ⟨?_, h⟩⟩
    rw [List.append_assoc]
  unfold Machine.write
  simp only [Store.stageMark, htotal]
  cases declared with
  | none =>
    simp only
    split
    · exact ⟨payload, rfl, hlen⟩
    · next hmax =>
      unfold Store.stageChunk
      split
      · next hnone => exact ⟨payload, rfl, hlen⟩
      · next s'' hsome =>
        split at hsome
        · cases hsome
        · cases hsome
          exact ⟨_, hgrown.mpr (by simpa using hmax)⟩
  | some len =>
    simp only
    split
    · exact ⟨payload, rfl, hlen⟩
    · next hmax => exact ⟨_, hgrown.mpr (by simpa using hmax)⟩

theorem staged_writes (chunks : List (List UInt8)) (h : Staged s declared s' payload) :
    ∃ payload', Staged s declared (Machine.writes s.stageMark declared s' chunks).1 payload' := by
  induction chunks generalizing s' payload with
  | nil => exact ⟨payload, h⟩
  | cons chunk chunks ih =>
    obtain ⟨payload', h'⟩ := staged_write h chunk
    exact ih h'

theorem Staged.abandon (h : Staged s declared s' payload) : s'.stageAbandon s.stageMark = s := by
  obtain ⟨rfl, -⟩ := h
  show ({ s with bytes := (s.bytes ++ payload).take s.bytes.length } : Store) = s
  rw [List.take_left]

theorem Staged.finish {s'' : Store} {value : Nat} (h : Staged s declared s' payload)
    (hf : s'.stageFinish s.stageMark = some (s'', value)) :
    s'' = s.append payload ∧ value = s.spans.length := by
  obtain ⟨rfl, -⟩ := h
  obtain ⟨v, hv, he⟩ := Option.map_eq_some_iff.mp hf
  cases he
  refine ⟨?_, mint_eq hv⟩
  show ({ s with bytes := _, spans := s.spans ++ [(s.bytes.length, _)] } : Store) = _
  rw [Store.stageMark, List.length_append, Store.stageMark, Nat.add_sub_cancel_left]
  rfl

end Staged

namespace Machine

variable {standard : Standard} {m : Machine standard}

/-! ## Gates -/

theorem live_ok {id : Nat} {c : Cell Row} (h : m.live id = .ok c) :
    m.rows[id]? = some c ∧ c.body.dead = false := by
  unfold live gate at h
  cases hr : m.rows[id]? with
  | none => rw [hr] at h; cases h
  | some c' =>
    rw [hr] at h
    simp only at h
    split at h
    · cases h
    · next hd =>
      cases h
      exact ⟨rfl, Bool.eq_false_iff.mpr hd⟩

/-- What a value command finds at its target. -/
inductive Witnessed : Edit → LiveEdit → Prop where
  | virgin : Witnessed .intact .virgin
  | replaced (value : Nat) : Witnessed (.replaced value) .replaced
  | sourcePayload (src : Nat) : Witnessed (.sourcePayload src) .replaced
  | sourceRecord : Witnessed .sourceRecord .replaced
  | inserted (value : Nat) : Witnessed (.inserted value) .inserted
  | sourceInserted (src : Nat) : Witnessed (.sourceInserted src) .inserted
  | imported (value : Nat) : Witnessed (.imported value) .inserted

theorem valueGate_ok {id : Nat} {kind : RecordKind} {witness : LiveEdit}
    (h : m.valueGate id kind = .ok witness) :
    ∃ c, m.live id = .ok c ∧ m.browseOnly c = false ∧ c.body.kind = kind ∧
      Witnessed c.body.edit witness := by
  unfold valueGate at h
  cases hl : m.live id with
  | error fault => rw [hl] at h; cases h
  | ok c =>
    rw [hl] at h
    simp only at h
    split at h
    · cases h
    · next hb =>
      split at h
      · cases h
      · next hk =>
        refine ⟨c, rfl, Bool.eq_false_iff.mpr hb, not_not.mp hk, ?_⟩
        cases he : c.body.edit <;> rw [he] at h <;> try cases h
        all_goals first
          | exact .virgin
          | exact .replaced _
          | exact .sourcePayload _
          | exact .sourceRecord
          | exact .inserted _
          | exact .sourceInserted _
          | exact .imported _

theorem transferSource_ok {src : Nat} {c : Cell Row} (h : m.transferSource src = .ok c) :
    m.live src = .ok c ∧ c.body.authoredZone = false ∧ c.body.isAlias = false ∧
      c.body.edit.isBorn = false := by
  unfold transferSource at h
  cases hl : m.live src with
  | error fault => rw [hl] at h; cases h
  | ok c' =>
    rw [hl] at h
    simp only at h
    split at h
    · cases h
    · next hz =>
      simp only [not_or, Bool.not_eq_true] at hz
      cases he : c'.body.edit <;> rw [he] at h <;> cases h <;>
        exact ⟨rfl, hz.1, hz.2, by rw [he]; rfl⟩

theorem moveSource_ok {src : Nat} {c : Cell Row} (h : m.moveSource src = .ok c) :
    m.transferSource src = .ok c ∧ c.body.edit = .intact ∧ c.body.dirty = false := by
  unfold moveSource at h
  cases hs : m.transferSource src with
  | error fault => rw [hs] at h; cases h
  | ok c' =>
    rw [hs] at h
    simp only at h
    split at h
    · cases h
    · next hd =>
      simp only [not_or, ne_eq, not_not, Bool.not_eq_true] at hd
      cases h
      exact ⟨rfl, hd⟩

/-! ## Effects -/

/-- What an accepted command writes on a row, and the store behind it. -/
inductive Editing (m : Machine standard) (command : Command standard) (id : Nat) : Store → Edit → Prop where
  | value {store : Store} {kind : RecordKind} {value : Nat} {witness : LiveEdit} :
      m.valueGate id kind = .ok witness → (kind = .len → m.interiorGate id = .ok ()) →
      Stored m.store kind store value → Editing m command id store (witness.set value)
  | shroud {c : Cell Row} {edit : Edit} : m.live id = .ok c → m.browseOnly c = false →
      shrouded c.body.edit = some edit → Editing m command id m.store edit
  | lift {c : Cell Row} {edit : Edit} : m.live id = .ok c → m.browseOnly c = false →
      lifted c.body.edit = some edit → Editing m command id m.store edit
  | clear {c : Cell Row} {edit : Edit} : m.live id = .ok c → m.browseOnly c = false →
      cleared c.body = some edit → Editing m command id m.store edit
  | designate {src : Nat} {s : Cell Row} {witness : LiveEdit} :
      command = .copyPayload src (.replace id) →
      m.transferSource src = .ok s → s.body.kind = .len → m.valueGate id .len = .ok witness →
      m.interiorGate id = .ok () → Editing m command id m.store (.sourcePayload src)

/-- The row an accepted command puts at an anchor, what it awakens to, and the store behind it. -/
inductive Birth (m : Machine standard) (command : Command standard) : Store → Row → Edit → Prop where
  | stored {store : Store} {field : FieldNumber} {kind : RecordKind} {value : Nat} :
      Stored m.store kind store value →
      Birth m command store (.authored field kind (.insertedDeleted value)) (.inserted value)
  | copied {src : Nat} {s : Cell Row} : command.plain = false → m.transferSource src = .ok s →
      Birth m command m.store s.body.clonedAlias .sourceRecord
  | designated {src : Nat} {s : Cell Row} {field : FieldNumber} : command.plain = false →
      m.transferSource src = .ok s → s.body.kind = .len →
      Birth m command m.store (.authored field .len (.sourceInsertedDeleted src))
        (.sourceInserted src)
  | imported {source : RecordRef standard} {store : Store} {value : Nat} : command.plain = false →
      m.store.pushBytes source.record.bytes = some (store, value) →
      Birth m command store
        (.authored source.record.field source.record.payload.kind (.importedDeleted value))
        (.imported value)

/-- The row a move puts at its gap. -/
inductive Landing (src : Nat) (s : Cell Row) : Row → Prop where
  | record : Landing src s s.body.clonedAlias
  | payload {field : FieldNumber} : s.body.kind = .len →
      Landing src s (.authored field .len (.sourceInsertedDeleted src))

/-- What a command does to the machine. -/
inductive Effect (m : Machine standard) (command : Command standard) : Machine standard → Prop where
  | refl : Effect m command m
  | edited {store : Store} {id : Nat} {edit : Edit} : m.Editing command id store edit →
      Effect m command ((m.withStore store).applyEdit id edit)
  | born {store : Store} {anchor : InsertAt} {plan : Plan} {id : Nat} {r : Row} {edit : Edit} :
      m.resolveAnchor anchor = .ok plan → mintRow m.rows = some id →
      m.Birth command store r edit →
      Effect m command ((m.withStore store).applyInsert plan id r edit)
  | moved {src : Nat} {s : Cell Row} {anchor : InsertAt} {plan : Plan} {id : Nat} {r : Row} :
      command.plain = false → m.moveSource src = .ok s → m.resolveAnchor anchor = .ok plan →
      m.moveGapGate plan src = .ok () → mintRow m.rows = some id → Landing src s r →
      Effect m command ((m.splice plan id r).applyMove src id)
  | entered {id : Nat} {c : Cell Row} : m.live id = .ok c → c.body.kind = .len →
      c.body.slot = .unopened → Effect m command (m.enter id c.body).1
  | reverted : Effect m command m.revert.1

/-- An outcome: a refusal leaves the machine, an acceptance has an effect. -/
structure Acts {α : Type} (m : Machine standard) (command : Command standard)
    (r : Machine standard × Except EditFault α) : Prop where
  effect : m.Effect command r.1
  refused : ∀ fault, r.2 = .error fault → r.1 = m

section Acts

variable {α β : Type} {command : Command standard} {r : Machine standard × Except EditFault α}

theorem acts_error (fault : EditFault) : m.Acts command (α := α) (m, .error fault) :=
  ⟨.refl, fun _ _ => rfl⟩

theorem acts_same (a : α) : m.Acts command (m, .ok a) := ⟨.refl, fun _ _ => rfl⟩

theorem acts_ok {m' : Machine standard} (h : m.Effect command m') (a : α) :
    m.Acts command (m', .ok a) :=
  ⟨h, fun _ e => nomatch e⟩

theorem Acts.answer (h : m.Acts command r) (f : α → Reply) : m.Acts command (answer f r) := by
  refine ⟨h.effect, fun fault e => ?_⟩
  cases hr : r.2 with
  | error fault' => exact h.refused fault' hr
  | ok a =>
    have he : r.2.map f = .error fault := e
    rw [hr] at he
    cases he

theorem payloadGate_ok {id : Nat} {witness : LiveEdit} (h : m.payloadGate id = .ok witness) :
    m.valueGate id .len = .ok witness ∧ m.interiorGate id = .ok () := by
  unfold payloadGate at h
  cases hv : m.valueGate id .len with
  | error fault => rw [hv] at h; cases h
  | ok w =>
    rw [hv] at h
    cases hi : m.interiorGate id with
    | error fault => rw [hi] at h; cases h
    | ok u =>
      rw [hi] at h
      cases h
      exact ⟨rfl, rfl⟩

theorem setScalar_acts {id : Nat} {kind : RecordKind} {pushed : Option (Store × Nat)}
    (hkind : kind ≠ .len)
    (hpushed : ∀ store value, pushed = some (store, value) → Stored m.store kind store value) :
    m.Acts command (m.setScalar id kind pushed) := by
  unfold setScalar
  cases hv : m.valueGate id kind with
  | error fault => exact acts_error fault
  | ok witness =>
    cases hp : pushed with
    | none => exact acts_error _
    | some p => exact acts_ok (.edited (.value hv (fun e => absurd e hkind) (hpushed _ _ hp))) _

theorem setVarint_acts (id : Nat) (word : UInt64) : m.Acts command (m.setVarint id word) :=
  setScalar_acts (by decide) fun _ _ => stored_varint

theorem setI32_acts (id : Nat) (bits : UInt32) : m.Acts command (m.setI32 id bits) :=
  setScalar_acts (by decide) fun _ _ => stored_i32

theorem setI64_acts (id : Nat) (bits : UInt64) : m.Acts command (m.setI64 id bits) :=
  setScalar_acts (by decide) fun _ _ => stored_i64

theorem setPayload_acts (id : Nat) (payload : List UInt8) :
    m.Acts command (m.setPayload id payload) := by
  unfold setPayload
  cases hg : m.payloadGate id with
  | error fault => exact acts_error fault
  | ok witness =>
    simp only
    split
    · exact acts_error _
    · next hlen =>
      cases hp : m.store.pushBytes payload with
      | none => exact acts_error _
      | some p =>
        obtain ⟨hv, hi⟩ := payloadGate_ok hg
        exact acts_ok (.edited (.value hv (fun _ => hi) (stored_len (by omega) hp))) _

theorem transit_acts {id : Nat} {to? : Row → Option Edit} {fault : EditFault}
    (h : ∀ c edit, m.live id = .ok c → m.browseOnly c = false → to? c.body = some edit →
      m.Editing command id m.store edit) :
    m.Acts command (m.transit id to? fault) := by
  unfold transit
  cases hl : m.live id with
  | error fault => exact acts_error fault
  | ok c =>
    simp only
    split
    · exact acts_error _
    · next hb =>
      cases ht : to? c.body with
      | none => exact acts_error _
      | some edit => exact acts_ok (.edited (h c edit hl (Bool.eq_false_iff.mpr hb) ht)) _

theorem delete_acts (id : Nat) : m.Acts command (m.delete id) :=
  transit_acts fun _ _ hl hb ht => .shroud hl hb ht

theorem undelete_acts (id : Nat) : m.Acts command (m.undelete id) :=
  transit_acts fun _ _ hl hb ht => .lift hl hb ht

theorem clearEdit_acts (id : Nat) : m.Acts command (m.clearEdit id) :=
  transit_acts fun _ _ hl hb ht => .clear hl hb ht

theorem insertScalar_acts {anchor : InsertAt} {field : FieldNumber} {kind : RecordKind}
    {pushed : Option (Store × Nat)}
    (hpushed : ∀ store value, pushed = some (store, value) → Stored m.store kind store value) :
    m.Acts command (m.insertScalar anchor field kind pushed) := by
  unfold insertScalar
  cases ha : m.resolveAnchor anchor with
  | error fault => exact acts_error fault
  | ok plan =>
    cases hid : mintRow m.rows with
    | none => exact acts_error _
    | some id =>
      cases hp : pushed with
      | none => exact acts_error _
      | some p => exact acts_ok (.born ha hid (.stored (hpushed _ _ hp))) _

theorem insertVarint_acts (anchor : InsertAt) (field : FieldNumber) (word : UInt64) :
    m.Acts command (m.insertVarint anchor field word) :=
  insertScalar_acts fun _ _ => stored_varint

theorem insertI32_acts (anchor : InsertAt) (field : FieldNumber) (bits : UInt32) :
    m.Acts command (m.insertI32 anchor field bits) :=
  insertScalar_acts fun _ _ => stored_i32

theorem insertI64_acts (anchor : InsertAt) (field : FieldNumber) (bits : UInt64) :
    m.Acts command (m.insertI64 anchor field bits) :=
  insertScalar_acts fun _ _ => stored_i64

theorem insertPayload_acts (anchor : InsertAt) (field : FieldNumber) (payload : List UInt8) :
    m.Acts command (m.insertPayload anchor field payload) := by
  unfold insertPayload
  cases ha : m.resolveAnchor anchor with
  | error fault => exact acts_error fault
  | ok plan =>
    cases hid : mintRow m.rows with
    | none => exact acts_error _
    | some id =>
      simp only
      split
      · exact acts_error _
      · next hlen =>
        cases hp : m.store.pushBytes payload with
        | none => exact acts_error _
        | some p => exact acts_ok (.born ha hid (.stored (stored_len (by omega) hp))) _

/-! ### Frames -/

theorem map_ok {f : α → β} {x : Except EditFault α} {b : β} (h : x.map f = .ok b) :
    ∃ a, x = .ok a ∧ f a = b := by
  cases x with
  | error fault => cases h
  | ok a => exact ⟨a, rfl, Except.ok.inj h⟩

/-- A frame's way to publish a staged payload. -/
def Opens (m : Machine standard) : FrameOp → Prop
  | .set id witness => m.payloadGate id = .ok witness
  | .insert plan _ => ∃ anchor, m.resolveAnchor anchor = .ok plan

theorem beginFrame_ok {door : Door} {declared : Option Nat} {op : FrameOp}
    (h : m.beginFrame door declared = .ok op) :
    m.admitDoor door = .ok op ∧ declared.getD PayloadLen.max ≤ PayloadLen.max := by
  unfold beginFrame at h
  cases ha : m.admitDoor door with
  | error fault => rw [ha] at h; cases h
  | ok op' =>
    rw [ha] at h
    cases declared with
    | none =>
      cases h
      exact ⟨rfl, Nat.le_refl _⟩
    | some len =>
      simp only at h
      split at h
      · cases h
      · next hlen =>
        split at h
        · cases h
          exact ⟨rfl, Nat.not_lt.mp hlen⟩
        · cases h

/-- A door's operation is of its kind. -/
theorem admitDoor_ok {door : Door} {op : FrameOp} (h : m.admitDoor door = .ok op) :
    m.Opens op ∧ ((∃ id witness, door = .set id ∧ op = .set id witness) ∨
      ∃ anchor plan field, door = .insert anchor field ∧ op = .insert plan field) := by
  cases door with
  | set id =>
    obtain ⟨w, hw, rfl⟩ := map_ok h
    exact ⟨hw, .inl ⟨id, w, rfl, rfl⟩⟩
  | insert anchor field =>
    obtain ⟨plan, hplan, rfl⟩ := map_ok h
    exact ⟨⟨anchor, hplan⟩, .inr ⟨anchor, plan, field, rfl, rfl⟩⟩

theorem publish_acts (command : Command standard) {op : FrameOp} {declared : Option Nat} {store : Store}
    {payload : List UInt8} (hop : m.Opens op) (hd : declared.getD PayloadLen.max ≤ PayloadLen.max)
    (hs : Staged m.store declared store payload) :
    (∃ m' id, (m.withStore store).publish op m.store.stageMark = (m', .ok id) ∧
      m.Effect command m') ∨
    ∃ fault, (m.withStore store).publish op m.store.stageMark =
      (m.withStore store, .error fault) := by
  have hstored : ∀ {store' value}, store.stageFinish m.store.stageMark = some (store', value) →
      Stored m.store .len store' value := by
    intro store' value hf
    obtain ⟨rfl, rfl⟩ := hs.finish hf
    exact .len payload (hs.2.trans hd)
  have hfinish : (m.withStore store).store.stageFinish m.store.stageMark =
      store.stageFinish m.store.stageMark := rfl
  have hmint : mintRow (m.withStore store).rows = mintRow m.rows := rfl
  unfold publish
  cases op with
  | set id witness =>
    obtain ⟨hv, hi⟩ := payloadGate_ok hop
    simp only [hfinish]
    cases hf : store.stageFinish m.store.stageMark with
    | none => exact .inr ⟨_, rfl⟩
    | some p => exact .inl ⟨_, _, rfl, .edited (.value hv (fun _ => hi) (hstored hf))⟩
  | insert plan field =>
    obtain ⟨anchor, ha⟩ := hop
    simp only [hfinish, hmint]
    cases hid : mintRow m.rows with
    | none => exact .inr ⟨_, rfl⟩
    | some id =>
      cases hf : store.stageFinish m.store.stageMark with
      | none => exact .inr ⟨_, rfl⟩
      | some p => exact .inl ⟨_, _, rfl, .born ha hid (.stored (hstored hf))⟩

theorem dropped {declared : Option Nat} {store : Store} {payload : List UInt8}
    (hs : Staged m.store declared store payload) :
    (m.withStore store).abandon m.store.stageMark = m := by
  show m.withStore ((m.withStore store).store.stageAbandon m.store.stageMark) = m
  rw [show (m.withStore store).store.stageAbandon m.store.stageMark = m.store from hs.abandon]
  rfl

theorem finish_acts (command : Command standard) {op : FrameOp} {declared : Option Nat} {store : Store}
    {payload : List UInt8} (hop : m.Opens op) (hd : declared.getD PayloadLen.max ≤ PayloadLen.max)
    (hs : Staged m.store declared store payload) :
    (∃ m' id, (m.withStore store).finish op m.store.stageMark declared = (m', .ok id) ∧
      m.Effect command m') ∨
    ∃ fault, (m.withStore store).finish op m.store.stageMark declared = (m, .error fault) := by
  unfold finish
  extract_lets staged
  by_cases hu : declared.any (· != staged) = true
  · rw [if_pos hu, dropped hs]
    exact .inr ⟨_, rfl⟩
  · rw [if_neg hu]
    rcases publish_acts command hop hd hs with ⟨m', id, he, heff⟩ | ⟨fault, he⟩
    · rw [he]
      exact .inl ⟨_, _, rfl, heff⟩
    · rw [he]
      refine .inr ⟨fault, ?_⟩
      show ((m.withStore store).abandon m.store.stageMark, _) = _
      rw [dropped hs]

theorem frame_acts (command : Command standard) (door : Door) (declared : Option Nat) (chunks : List (List UInt8))
    (finished : Bool) : m.Acts command (m.frame door declared chunks finished) := by
  unfold frame
  cases hb : m.beginFrame door declared with
  | error fault => exact acts_error fault
  | ok op =>
    obtain ⟨ha, hd⟩ := beginFrame_ok hb
    have hop := (admitDoor_ok ha).1
    have hnil : Staged m.store declared m.store [] := ⟨by simp, Nat.zero_le _⟩
    obtain ⟨payload, hs⟩ := staged_writes chunks hnil
    simp only
    cases finished with
    | false =>
      rw [if_neg Bool.false_ne_true, dropped hs]
      exact acts_same _
    | true =>
      rw [if_pos rfl]
      rcases finish_acts command hop hd hs with ⟨m', id, he, heff⟩ | ⟨fault, he⟩
      · rw [he]
        exact acts_ok heff _
      · rw [he]
        exact acts_error _

/-! ### Descents -/

theorem enter_refused {id : Nat} {r : Row} {fault : EditFault}
    (h : (m.enter id r).2 = .error fault) : (m.enter id r).1 = m := by
  have hpark : ∀ slotFault, (m.park id slotFault).2 = .error fault →
      (m.park id slotFault).1 = m := by
    intro slotFault h
    unfold park at h ⊢
    cases hm : Editor.mint m.faults.length with
    | none => rfl
    | some index => rw [hm] at h; cases h
  unfold enter at h ⊢
  cases hw : m.interior r with
  | error fault => rfl
  | ok w =>
    rw [hw] at h
    simp only at h ⊢
    split
    · next rows first last hscan =>
      rw [hscan] at h
      simp only at h
      split
      · rfl
      · next m' hseal => rw [hseal] at h; cases h
    · next hscan =>
      rw [hscan] at h
      exact hpark _ h
    · next hscan =>
      rw [hscan] at h
      exact hpark _ h
    · rfl

theorem descend_acts (id : Nat) : m.Acts command (m.descend id) := by
  unfold descend
  cases hl : m.live id with
  | error fault => exact acts_error fault
  | ok c =>
    simp only
    split
    · exact acts_error _
    · next hkind =>
      cases hslot : c.body.slot with
      | opened layer => exact acts_same _
      | fault index => exact acts_same _
      | unopened => exact ⟨.entered hl (not_not.mp hkind) hslot, fun _ => enter_refused⟩

/-! ### Transfers -/

theorem landing_ok {anchor : InsertAt} {plan : Plan} {id : Nat}
    (h : m.landing anchor = .ok (plan, id)) :
    m.resolveAnchor anchor = .ok plan ∧ mintRow m.rows = some id := by
  unfold landing at h
  cases ha : m.resolveAnchor anchor with
  | error fault => rw [ha] at h; cases h
  | ok plan' =>
    rw [ha] at h
    cases hid : mintRow m.rows with
    | none => rw [hid] at h; cases h
    | some id' =>
      rw [hid] at h
      cases h
      exact ⟨rfl, rfl⟩

theorem copyRecord_acts (src : Nat) (anchor : InsertAt) :
    m.Acts (.copyRecord src anchor) (m.copyRecord src anchor) := by
  unfold copyRecord
  cases hs : m.transferSource src with
  | error fault => exact acts_error fault
  | ok s =>
    cases hl : m.landing anchor with
    | error fault => exact acts_error fault
    | ok p =>
      obtain ⟨ha, hid⟩ := landing_ok hl
      exact acts_ok (.born ha hid (.copied rfl hs)) _

theorem copyRecordFrom_acts (source : RecordRef standard) (anchor : InsertAt) :
    m.Acts (.copyRecordFrom source anchor) (m.copyRecordFrom source anchor) := by
  unfold copyRecordFrom
  cases hl : m.landing anchor with
  | error fault => exact acts_error fault
  | ok p =>
    obtain ⟨ha, hid⟩ := landing_ok hl
    cases hp : m.store.pushBytes source.record.bytes with
    | none => exact acts_error _
    | some p => exact acts_ok (.born ha hid (.imported rfl hp)) _

theorem copyPayload_acts (src : Nat) (target : PayloadTarget) :
    m.Acts (.copyPayload src target) (m.copyPayload src target) := by
  unfold copyPayload
  cases hs : m.transferSource src with
  | error fault => exact acts_error fault
  | ok s =>
    simp only
    split
    · exact acts_error _
    · next hkind =>
      cases target with
      | replace id =>
        simp only
        cases hg : m.payloadGate id with
        | error fault => exact acts_error fault
        | ok witness =>
          obtain ⟨hv, hi⟩ := payloadGate_ok hg
          exact acts_ok (.edited (.designate rfl hs (not_not.mp hkind) hv hi)) _
      | insert anchor field =>
        simp only
        cases hl : m.landing anchor with
        | error fault => exact acts_error fault
        | ok p =>
          obtain ⟨ha, hid⟩ := landing_ok hl
          exact acts_ok (.born ha hid (.designated rfl hs (not_not.mp hkind))) _

theorem departure_ok {src : Nat} {anchor : InsertAt} {payload : Bool} {s : Cell Row} {plan : Plan}
    {id : Nat} (h : m.departure src anchor payload = .ok (s, plan, id)) :
    m.moveSource src = .ok s ∧ (payload = true → s.body.kind = .len) ∧
      m.resolveAnchor anchor = .ok plan ∧ m.moveGapGate plan src = .ok () ∧
      mintRow m.rows = some id := by
  unfold departure at h
  cases hs : m.moveSource src with
  | error fault => rw [hs] at h; cases h
  | ok s' =>
    rw [hs] at h
    simp only at h
    split at h
    · cases h
    · next hkind =>
      cases ha : m.resolveAnchor anchor with
      | error fault => rw [ha] at h; cases h
      | ok plan' =>
        rw [ha] at h
        simp only at h
        cases hg : m.moveGapGate plan' src with
        | error fault => rw [hg] at h; cases h
        | ok u =>
          rw [hg] at h
          simp only at h
          cases hid : mintRow m.rows with
          | none => rw [hid] at h; cases h
          | some id' =>
            rw [hid] at h
            cases h
            exact ⟨rfl, fun hp => not_not.mp fun hn => hkind ⟨hp, hn⟩, rfl, hg, rfl⟩

theorem moveRecord_acts (src : Nat) (anchor : InsertAt) :
    m.Acts (.moveRecord src anchor) (m.moveRecord src anchor) := by
  unfold moveRecord
  cases hd : m.departure src anchor false with
  | error fault => exact acts_error fault
  | ok p =>
    obtain ⟨hs, -, ha, hg, hid⟩ := departure_ok hd
    exact acts_ok (.moved rfl hs ha hg hid .record) _

theorem movePayload_acts (src : Nat) (anchor : InsertAt) (field : FieldNumber) :
    m.Acts (.movePayload src anchor field) (m.movePayload src anchor field) := by
  unfold movePayload
  cases hd : m.departure src anchor true with
  | error fault => exact acts_error fault
  | ok p =>
    obtain ⟨hs, hkind, ha, hg, hid⟩ := departure_ok hd
    exact acts_ok (.moved rfl hs ha hg hid (.payload (hkind rfl))) _

end Acts

/-- What every command does. -/
theorem perform_acts (m : Machine standard) (command : Command standard) :
    m.Acts command (m.perform command) := by
  cases command with
  | descend id => exact (descend_acts id).answer _
  | setVarint id word => exact (setVarint_acts id word).answer _
  | setI32 id bits => exact (setI32_acts id bits).answer _
  | setI64 id bits => exact (setI64_acts id bits).answer _
  | setPayload id payload => exact (setPayload_acts id payload).answer _
  | delete id => exact (delete_acts id).answer _
  | undelete id => exact (undelete_acts id).answer _
  | clearEdit id => exact (clearEdit_acts id).answer _
  | insertVarint anchor field word => exact (insertVarint_acts anchor field word).answer _
  | insertI32 anchor field bits => exact (insertI32_acts anchor field bits).answer _
  | insertI64 anchor field bits => exact (insertI64_acts anchor field bits).answer _
  | insertPayload anchor field payload => exact (insertPayload_acts anchor field payload).answer _
  | frame door declared chunks finished =>
    exact (frame_acts _ door declared chunks finished).answer _
  | copyRecord src anchor => exact (copyRecord_acts src anchor).answer _
  | moveRecord src anchor => exact (moveRecord_acts src anchor).answer _
  | copyPayload src target => exact (copyPayload_acts src target).answer _
  | movePayload src anchor field => exact (movePayload_acts src anchor field).answer _
  | copyRecordFrom source anchor => exact (copyRecordFrom_acts source anchor).answer _
  | revert => exact ⟨.reverted, fun _ h => nomatch h⟩

theorem perform_effect (m : Machine standard) (command : Command standard) :
    m.Effect command (m.perform command).1 :=
  (m.perform_acts command).effect

end Machine

end ProtobufEdit.Revise
