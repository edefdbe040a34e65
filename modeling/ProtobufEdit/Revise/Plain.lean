import ProtobufEdit.Revise.Frames
import ProtobufEdit.Revise.Orphans

/-!
# Plain machines

A plain machine's commands designate nothing: a row's bytes are its own span or a value of the
store. No command edits a row scanned out of an authored payload, so no command orphans an
interior that holds a mark.
-/

namespace ProtobufEdit.Revise

open Wire Wire.Groupless Varint Base128 Arena

namespace Edit

/-- The plain machines have the state. -/
def isPlain : Edit → Bool
  | intact | replaced _ | deleted _ | inserted _ | insertedDeleted _ => true
  | _ => false

theorem isPlain_shrouded {edit edit' : Edit} (h : Machine.shrouded edit = some edit')
    (hp : edit.isPlain = true) : edit'.isPlain = true := by
  cases edit <;> cases h <;> first | rfl | cases hp

theorem isPlain_lifted {edit edit' : Edit} (h : Machine.lifted edit = some edit')
    (hp : edit.isPlain = true) : edit'.isPlain = true := by
  unfold Machine.lifted at h
  split at h <;> cases h <;> first | rfl | cases hp

end Edit

/-! ## The store -/

namespace Store

/-- How many values of a kind there are. -/
def size (s : Store) : RecordKind → Nat
  | .varint => s.varints.length
  | .i32 => s.bits32.length
  | .i64 => s.bits64.length
  | .len => s.spans.length

/-- The values are words of their widths, and the payloads stand in the byte column. -/
structure Sound (s : Store) : Prop where
  varints : ∀ v ∈ s.varints, v < 2 ^ 64
  bits32 : ∀ v ∈ s.bits32, v < 2 ^ 32
  bits64 : ∀ v ∈ s.bits64, v < 2 ^ 64
  spans : ∀ span ∈ s.spans, span.1 + span.2 ≤ s.bytes.length ∧ span.2 ≤ PayloadLen.max

/-- A store that has grown keeps the values it had. -/
structure Grows (s s' : Store) : Prop where
  varints : s.varints <+: s'.varints
  bits32 : s.bits32 <+: s'.bits32
  bits64 : s.bits64 <+: s'.bits64
  bytes : s.bytes <+: s'.bytes
  spans : s.spans <+: s'.spans

variable {s s' s'' : Store} {kind : RecordKind} {value : Nat}

theorem Grows.refl (s : Store) : s.Grows s :=
  ⟨List.prefix_rfl, List.prefix_rfl, List.prefix_rfl, List.prefix_rfl, List.prefix_rfl⟩

theorem Grows.size (h : s.Grows s') (kind : RecordKind) : s.size kind ≤ s'.size kind := by
  cases kind with
  | varint => exact h.varints.length_le
  | i32 => exact h.bits32.length_le
  | i64 => exact h.bits64.length_le
  | len => exact h.spans.length_le

theorem getD_grows {α : Type} {l l' : List α} (h : l <+: l') (hv : value < l.length) (d : α) :
    l'.getD value d = l.getD value d := by
  obtain ⟨more, rfl⟩ := h
  rw [List.getD_eq_getElem?_getD, List.getElem?_append_left hv, List.getD_eq_getElem?_getD]

theorem Grows.span (h : s.Grows s') (hv : value < s.size .len) : s'.span value = s.span value :=
  getD_grows h.spans hv (0, 0)

/-- A payload is where its span says, and as long. -/
theorem Sound.span (h : s.Sound) (value : Nat) :
    (s.span value).1 + (s.span value).2 ≤ s.bytes.length ∧ (s.span value).2 ≤ PayloadLen.max := by
  unfold Store.span
  rw [List.getD_eq_getElem?_getD]
  cases hs : s.spans[value]? with
  | none => exact ⟨Nat.zero_le _, Nat.zero_le _⟩
  | some span => exact h.spans span (List.mem_of_getElem? hs)

theorem Sound.spanBytes_length (h : s.Sound) (value : Nat) :
    (s.spanBytes value).length = (s.span value).2 := by
  have hle := (h.span value).1
  unfold Store.spanBytes
  rw [List.length_take, List.length_drop]
  omega

theorem sound_new : new.Sound := ⟨nofun, nofun, nofun, nofun⟩

end Store

section Stored

variable {s s' : Store} {kind : RecordKind} {value : Nat}

theorem Stored.grows (h : Stored s kind s' value) : s.Grows s' := by
  cases h with
  | varint word => exact { Store.Grows.refl s with varints := List.prefix_append _ _ }
  | i32 bits => exact { Store.Grows.refl s with bits32 := List.prefix_append _ _ }
  | i64 bits => exact { Store.Grows.refl s with bits64 := List.prefix_append _ _ }
  | len payload _ =>
    exact { Store.Grows.refl s with
      bytes := List.prefix_append _ _
      spans := List.prefix_append _ _ }

/-- A value stored is the last of its kind. -/
theorem Stored.size (h : Stored s kind s' value) :
    value = s.size kind ∧ s'.size kind = s.size kind + 1 := by
  cases h <;> exact ⟨rfl, List.length_append⟩

theorem Stored.sound (h : Stored s kind s' value) (hs : s.Sound) : s'.Sound := by
  cases h with
  | varint word =>
    refine { hs with varints := fun v hv => ?_ }
    rcases List.mem_append.mp hv with hv | hv
    · exact hs.varints v hv
    · rw [List.mem_singleton.mp hv]
      exact word.toNat_lt
  | i32 bits =>
    refine { hs with bits32 := fun v hv => ?_ }
    rcases List.mem_append.mp hv with hv | hv
    · exact hs.bits32 v hv
    · rw [List.mem_singleton.mp hv]
      exact bits.toNat_lt
  | i64 bits =>
    refine { hs with bits64 := fun v hv => ?_ }
    rcases List.mem_append.mp hv with hv | hv
    · exact hs.bits64 v hv
    · rw [List.mem_singleton.mp hv]
      exact bits.toNat_lt
  | len payload hlen =>
    refine { hs with spans := fun span hv => ?_ }
    show span.1 + span.2 ≤ (s.bytes ++ payload).length ∧ _
    rw [List.length_append]
    rcases List.mem_append.mp hv with hv | hv
    · exact (hs.spans span hv).imp_left fun hle => Nat.le_trans hle (Nat.le_add_right _ _)
    · rw [List.mem_singleton.mp hv]
      exact ⟨Nat.le_refl _, hlen⟩

end Stored

/-! ## Plain rows -/

/-- What an edit of a plain row says is in the store. -/
structure Says (s : Store) (kind : RecordKind) (edit : Edit) : Prop where
  plain : edit.isPlain = true
  stored : ∀ v, edit.speaker = .store v → v < s.size kind

section Says

variable {s s' : Store} {kind : RecordKind} {edit edit' : Edit}

theorem Says.grows (h : Says s kind edit) (hg : s.Grows s') : Says s' kind edit :=
  ⟨h.plain, fun v hv => Nat.lt_of_lt_of_le (h.stored v hv) (hg.size kind)⟩

theorem Says.alike (h : Says s kind edit) (hp : edit'.isPlain = true)
    (hs : edit'.speaker = edit.speaker) : Says s kind edit' :=
  ⟨hp, fun v hv => h.stored v (hs ▸ hv)⟩

theorem says_intact : Says s kind .intact := ⟨rfl, nofun⟩

theorem Says.unmoved (h : Says s kind edit) (d : Nat) : edit ≠ .moved d := by
  rintro rfl
  cases h.plain

end Says

namespace Machine

variable {standard : Standard} {m m' : Machine standard} {t t' : Forest Unit} {id x : Nat}

/-- Every row is plain, and so is every state the log keeps; a row scanned out of an authored
payload was never edited. -/
structure Plain (m : Machine standard) : Prop where
  store : m.store.Sound
  rows : ∀ (x : Nat) (p : Option Nat) (r : Row), m.cores[x]? = some (p, r) →
    r.isAlias = false ∧ Says m.store r.kind r.edit ∧
      (r.authoredZone = true → r.edit = .intact ∧ ¬ Named m.log x)
  log : ∀ step ∈ m.log, ∃ p r, m.cores[step.row]? = some (p, r) ∧ Says m.store r.kind step.past

theorem Plain.cell (h : m.Plain) {c : Cell Row} (hc : m.rows[x]? = some c) :
    c.body.isAlias = false ∧ Says m.store c.body.kind c.body.edit ∧
      (c.body.authoredZone = true → c.body.edit = .intact ∧ ¬ Named m.log x) := by
  have hcell := h.rows x _ _ (m.cores_of_row hc)
  exact hcell

/-- In a plain machine, what an authored payload holds is for reading alone. -/
theorem Plain.gated (h : m.Plain) {c : Cell Row} (hc : m.rows[x]? = some c)
    (hb : m.browseOnly c = false) : c.body.authoredZone = false := by
  have ha := (h.cell hc).1
  unfold browseOnly importZoneRow at hb
  rw [ha] at hb
  simpa using hb

/-! ### Steps -/

theorem Plain.withStore (h : m.Plain) {store : Store} (hg : m.store.Grows store)
    (hs : store.Sound) : (m.withStore store).Plain := by
  refine ⟨hs, fun x p r hr => ?_, fun step hstep => ?_⟩
  · obtain ⟨ha, hspoken, hzone⟩ := h.rows x p r hr
    exact ⟨ha, hspoken.grows hg, hzone⟩
  · obtain ⟨p, r, hr, hspoken⟩ := h.log step hstep
    exact ⟨p, r, hr, hspoken.grows hg⟩

theorem logPop_store (step : Transition) (log : List Transition) :
    (m.logPop step log).store = m.store := by
  have h := congrArg Machine.store (m.logPop_bare step log)
  exact h

theorem Plain.logged (h : m.Plain) {past : Edit} {p : Option Nat} {r : Row}
    (hr : m.cores[id]? = some (p, r)) (hspoken : Says m.store r.kind past)
    (hzone : r.authoredZone = false) : (m.logPush id past).Plain := by
  refine ⟨by rw [logPush_store]; exact h.store, fun x q a ha => ?_, fun step hstep => ?_⟩
  · rw [logPush_cores] at ha
    rw [logPush_store, logPush_log]
    obtain ⟨halias, hs, hz⟩ := h.rows x q a ha
    refine ⟨halias, hs, fun hauth => ⟨(hz hauth).1, fun hn => ?_⟩⟩
    rcases named_cons.mp hn with rfl | hn
    · cases hr.symm.trans ha
      rw [hzone] at hauth
      cases hauth
    · exact (hz hauth).2 hn
  · rw [logPush_cores, logPush_store]
    rw [logPush_log] at hstep
    rcases List.mem_cons.mp hstep with rfl | hstep
    · exact ⟨p, r, hr, hspoken⟩
    · exact h.log step hstep

theorem Plain.popped (h : m.Plain) {step : Transition} {log : List Transition}
    (hlog : m.log = step :: log) : (m.logPop step log).Plain := by
  have hsub : ∀ s ∈ log, s ∈ m.log := fun s hs => hlog ▸ List.mem_cons_of_mem _ hs
  refine ⟨by rw [logPop_store]; exact h.store, fun x q a ha => ?_, fun s hs => ?_⟩
  · rw [logPop_cores] at ha
    rw [logPop_store, logPop_log]
    obtain ⟨halias, hs, hz⟩ := h.rows x q a ha
    exact ⟨halias, hs, fun hauth => ⟨(hz hauth).1, fun hn =>
      (hz hauth).2 (hn.imp fun s h => ⟨hsub s h.1, h.2⟩)⟩⟩
  · rw [logPop_cores, logPop_store]
    rw [logPop_log] at hs
    exact h.log s (hsub s hs)

theorem Plain.written (h : m.Plain) {edit : Edit}
    (hspoken : ∀ p r, m.cores[id]? = some (p, r) →
      Says m.store r.kind edit ∧ (r.authoredZone = true → edit = .intact)) :
    (m.writeState id edit).Plain := by
  refine ⟨by rw [writeState_store]; exact h.store, fun x p r hr => ?_, fun step hs => ?_⟩
  · rw [writeState_cores] at hr
    rw [writeState_store, writeState_log]
    obtain ⟨q, hq, rfl⟩ := modify_back hr
    obtain ⟨halias, hs, hz⟩ := h.rows x p q hq
    split
    · next hx =>
      subst hx
      obtain ⟨hs', hz'⟩ := hspoken p q hq
      exact ⟨halias, hs', fun hauth => ⟨hz' hauth, (hz hauth).2⟩⟩
    · exact ⟨halias, hs, hz⟩
  · rw [writeState_cores, writeState_store]
    rw [writeState_log] at hs
    obtain ⟨p, r, hr, hspoken'⟩ := h.log step hs
    refine ⟨p, _, modify_here hr, ?_⟩
    split <;> exact hspoken'

/-- Plain rows behind the arena, none of which the log names. -/
theorem Plain.grown (h : m.Plain) {more : List (Option Nat × Row)}
    (hcores : m'.cores = m.cores ++ more) (hlog : m'.log = m.log) (hs : m'.store = m.store)
    (hmore : ∀ b ∈ more, b.2.isAlias = false ∧ Says m.store b.2.kind b.2.edit ∧
      (b.2.authoredZone = true → b.2.edit = .intact)) : m'.Plain := by
  refine ⟨by rw [hs]; exact h.store, fun x p r hr => ?_, fun step hstep => ?_⟩
  · rw [hcores, List.getElem?_append] at hr
    rw [hs, hlog]
    split at hr
    · exact h.rows x p r hr
    · next hx =>
      obtain ⟨halias, hspoken, hzone⟩ := hmore _ (List.mem_of_getElem? hr)
      refine ⟨halias, hspoken, fun hauth => ⟨hzone hauth, ?_⟩⟩
      rintro ⟨step, hstep, rfl⟩
      obtain ⟨q, a, ha, -⟩ := h.log step hstep
      exact hx (List.getElem?_eq_some_iff.mp ha).1
  · rw [hlog] at hstep
    obtain ⟨p, r, hr, hspoken⟩ := h.log step hstep
    rw [hcores, hs]
    exact ⟨p, r, (List.getElem?_append_left (List.getElem?_eq_some_iff.mp hr).1).trans hr, hspoken⟩

/-! ### Commands -/

section Commands

variable {command : Command standard} {store : Store} {edit : Edit}

/-- What an accepted plain command writes on a row, and what it leaves in the store. -/
structure Edited (m : Machine standard) (id : Nat) (store : Store) (edit : Edit) : Prop where
  grows : m.store.Grows store
  sound : store.Sound
  cell : ∃ c, m.live id = .ok c ∧ m.browseOnly c = false ∧ Says store c.body.kind edit

theorem Plain.editing (h : m.Plain) (he : m.Editing command id store edit)
    (hp : command.plain = true) : m.Edited id store edit := by
  cases he with
  | @value _ kind value witness hgate _ hstored =>
    obtain ⟨c, hl, hb, rfl, hw⟩ := valueGate_ok hgate
    refine ⟨hstored.grows, hstored.sound h.store, c, hl, hb, ?_, ?_⟩
    · cases witness <;> rfl
    · have hspeak : (witness.set value).speaker = .store value := by cases witness <;> rfl
      intro v hv
      rw [hspeak] at hv
      cases hv
      obtain ⟨rfl, hsize⟩ := hstored.size
      omega
  | @shroud c _ hl hb he =>
    have hs := (h.cell (live_ok hl).1).2.1
    exact ⟨.refl _, h.store, c, hl, hb,
      hs.alike (Edit.isPlain_shrouded he hs.plain) (shrouded_speaker he).1⟩
  | @lift c _ hl hb he =>
    have hs := (h.cell (live_ok hl).1).2.1
    exact ⟨.refl _, h.store, c, hl, hb,
      hs.alike (Edit.isPlain_lifted he hs.plain) (lifted_speaker he).1⟩
  | @clear c _ hl hb he =>
    refine ⟨.refl _, h.store, c, hl, hb, ?_⟩
    have hintact : edit = .intact := by
      unfold cleared at he
      split at he
      · split at he <;> cases he
        rfl
      · split at he <;> cases he
        rfl
      · cases he
    rw [hintact]
    exact says_intact
  | designate hcmd =>
    subst hcmd
    cases hp

theorem Plain.edited (h : m.Plain) (he : m.Edited id store edit) :
    ((m.withStore store).applyEdit id edit).Plain := by
  obtain ⟨hg, hs, c, hl, hb, hspoken⟩ := he
  have hc := (live_ok hl).1
  have hzone := h.gated hc hb
  have hstore := h.withStore hg hs
  have hcore : (m.withStore store).cores[id]? = some (c.parent, c.body.core) := m.cores_of_row hc
  have hzone : c.body.core.authoredZone = false := hzone
  have hold := (hstore.rows id _ _ hcore).2.1
  have hedit : ((m.withStore store).row id).body.edit = c.body.core.edit := by
    show (m.row id).body.edit = _
    rw [m.row_eq hc]
    rfl
  unfold Machine.applyEdit
  rw [hedit]
  refine (hstore.logged hcore hold hzone).written fun p r hr => ?_
  rw [logPush_cores] at hr
  cases hr.symm.trans hcore
  rw [logPush_store]
  exact ⟨hspoken, fun hauth => by rw [hzone] at hauth; cases hauth⟩

/-- A record put at an anchor. -/
theorem Plain.born (h : m.Plain) {plan : Plan} {field : FieldNumber} {kind : RecordKind}
    {value : Nat} (hid : mintRow m.rows = some id) (hstored : Stored m.store kind store value) :
    ((m.withStore store).applyInsert plan id (.authored field kind (.insertedDeleted value))
      (.inserted value)).Plain := by
  have hstore := h.withStore hstored.grows (hstored.sound h.store)
  have hspoken : ∀ edit : Edit, edit.isPlain = true → edit.speaker = .store value →
      Says store kind edit := by
    intro edit hp he
    refine ⟨hp, fun v hv => ?_⟩
    rw [he] at hv
    cases hv
    obtain ⟨rfl, hsize⟩ := hstored.size
    omega
  have hspliced : ((m.withStore store).splice plan id
      (.authored field kind (.insertedDeleted value))).Plain := by
    refine hstore.grown (splice_cores _ _ _ _) (splice_log _ _ _ _) (splice_store _ _ _)
      fun b hb => ?_
    obtain rfl := List.mem_singleton.mp hb
    exact ⟨rfl, hspoken _ rfl rfl, nofun⟩
  have hcore := (m.withStore store).spliced_core plan
    (.authored field kind (.insertedDeleted value)) hid
  refine (hspliced.logged hcore ?_ rfl).written fun p r hr => ?_
  · rw [splice_store]
    exact hspoken _ rfl rfl
  · rw [logPush_cores] at hr
    cases hr.symm.trans hcore
    rw [logPush_store, splice_store]
    exact ⟨hspoken _ rfl rfl, nofun⟩

/-- What speaks for a row of a plain machine, its own span or a value, stands in no alias. -/
theorem Plain.interior (h : m.Plain) {c : Cell Row} (hc : m.rows[x]? = some c) {w : Interior}
    (hw : m.interior c.body = .ok w) : w.isAlias = false := by
  have hp := (h.cell hc).2.1.plain
  unfold Machine.interior at hw
  cases he : c.body.edit with
  | deleted value =>
    rw [he] at hw
    cases value with
    | none =>
      cases hs : scannedAt c.body <;> rw [hs] at hw <;> cases hw
      rfl
    | some v =>
      cases hw
      rfl
  | replaced v | inserted v | insertedDeleted v =>
    rw [he] at hw
    cases hw
    rfl
  | intact =>
    rw [he] at hw
    cases hs : scannedAt c.body <;> rw [hs] at hw <;> cases hw
    rfl
  | _ =>
    rw [he] at hp
    cases hp

theorem Plain.entered (h : m.Plain) {c : Cell Row} (hc : m.rows[id]? = some c) :
    (m.enter id c.body).1.Plain := by
  rcases enter_cases id c.body with he | ⟨faults, index, he⟩ | ⟨w, records, hp⟩
  · exact he ▸ h
  · rw [he]
    have hf : ({ m with faults } : Machine standard).Plain := ⟨h.store, h.rows, h.log⟩
    have hcores : (({ m with faults } : Machine standard).setSlot id (.fault index) none).cores =
        ({ m with faults } : Machine standard).cores ++ [] := by
      rw [setSlot_cores, List.append_nil]
    exact hf.grown hcores rfl rfl fun _ hb => absurd hb List.not_mem_nil
  · obtain ⟨layers, runs, run, he⟩ := hp.machine
    have hcores : (m.enter id c.body).1.cores = m.cores ++
        (laid (some id) m.rows.length
          (interiorRows standard w c.body.isAlias records)).map Revise.core := by
      rw [he, setSlot_cores]
      exact List.map_append
    refine h.grown hcores (by rw [he]; rfl) (by rw [he]; rfl) fun b hb => ?_
    obtain ⟨d, hd, rfl⟩ := List.mem_map.mp hb
    obtain ⟨i, hi⟩ := List.getElem?_of_mem hd
    rw [laid_getElem?] at hi
    obtain ⟨a, ha, rfl⟩ := Option.map_eq_some_iff.mp hi
    obtain ⟨r, hmet, rfl⟩ := List.mem_map.mp (List.mem_of_getElem? ha)
    obtain ⟨pos, record, rfl⟩ := metRows_met hmet
    have halias : w.isAlias = false ∧ c.body.isAlias = false :=
      ⟨h.interior hc hp.interior, (h.cell hc).1⟩
    refine ⟨?_, says_intact, fun _ => rfl⟩
    show (false || (w.isAlias || c.body.isAlias)) = false
    rw [halias.1, halias.2]
    rfl

theorem Plain.reverted (h : m.Plain) : m.revert.1.Plain := by
  unfold Machine.revert
  cases hlog : m.log with
  | nil => exact h
  | cons step log =>
    obtain ⟨p, r, hr, hspoken⟩ := h.log step (hlog ▸ List.mem_cons_self)
    have hplain : ((m.logPop step log).writeState step.row step.past).Plain := by
      refine (h.popped hlog).written fun q a ha => ?_
      rw [logPop_cores] at ha
      cases ha.symm.trans hr
      rw [logPop_store]
      refine ⟨hspoken, fun hauth => absurd ?_ ((h.rows _ _ _ hr).2.2 hauth).2⟩
      rw [hlog]
      exact named_cons.mpr (.inl rfl)
    simp only
    split
    · next d hd => exact absurd hd (hspoken.unmoved d)
    · exact hplain

end Commands

theorem plain_open {cap : Nat} {source : List UInt8}
    (h : openSource standard cap source = .ok m) : m.Plain := by
  obtain ⟨records, -, -, rfl⟩ := openSource_eq h
  refine ⟨Store.sound_new, fun x p r hr => ?_, nofun⟩
  rw [cores_getElem?] at hr
  obtain ⟨c, hc, he⟩ := Option.map_eq_some_iff.mp hr
  obtain ⟨-, -, hmet, -⟩ := laid_cell hc
  obtain ⟨pos, record, hrow⟩ := metRows_met hmet
  cases he
  rw [hrow]
  exact ⟨rfl, says_intact, nofun⟩

end Machine

end ProtobufEdit.Revise
