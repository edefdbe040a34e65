import ProtobufEdit.Editor.Descend
import ProtobufEdit.Editor.Splice

/-!
# Commands

What each accepted command makes of the document a machine stands for, and that a refused one
leaves the machine.
-/

namespace ProtobufEdit.Editor

open Wire Wire.Grouped Varint Arena

section Insertions

variable {m m' : Machine} {t : Forest Node} {anchor : InsertAt} {field : FieldNumber} {id : Nat}

theorem mintRow_eq {rows : List (Cell Row)} (h : mintRow rows = some id) :
    id = rows.length ∧ rows.length ≤ rowMax := by
  unfold mintRow at h
  split at h
  · next hle => exact ⟨(Option.some.inj h).symm, hle⟩
  · cases h

theorem Stocks.word (h : Models m t) {kind : RecordKind} {value : Nat} (hl : kind ≠ .len)
    (hg : kind ≠ .group) (hv : value < 2 ^ 64) (h32 : kind = .i32 → value < 2 ^ 32) :
    Stocks m (m.words ++ [value]) m.payloads field kind m.words.length (.word value) := by
  refine ⟨.word rfl (.inr rfl) hl hg List.getElem?_concat_length, ⟨nofun, ?_, nofun⟩,
    ⟨h.free_word _ (Nat.le_refl _), fun ho => absurd ho.2 hl⟩, fun x c e _ hs => ?_⟩
  · rintro _ ⟨⟩
    exact ⟨hv, h32⟩
  · exact hs.frame (fun ho => List.getElem?_append_left (hs.word_lt ho)) fun _ _ hp => hp

theorem Stocks.payload (h : Models m t) {payloads : PayloadStore} {bytes : List UInt8}
    (hcap : bytes.length ≤ PayloadLen.max) (hp : m.payloads.Pushed payloads bytes) :
    Stocks m m.words payloads field .len m.payloads.slots.length (.payload bytes) := by
  refine ⟨.payload rfl (.inr rfl) rfl rfl hp.holds, ⟨nofun, nofun, ?_⟩,
    ⟨fun ho => absurd rfl ho.2.1, h.free_payload _ (Nat.le_refl _)⟩, fun x c e _ hs => ?_⟩
  · rintro _ ⟨⟩
    exact hcap
  · exact hs.frame (fun _ => rfl) fun _ bytes hb => hp.keeps _ bytes hb

theorem Stocks.group (m : Machine) : Stocks m m.words m.payloads field .group 0 .kept :=
  ⟨.kept rfl (.inr ⟨rfl, rfl⟩), ⟨nofun, nofun, nofun⟩,
    ⟨fun ho => absurd rfl ho.2.2, fun ho => nomatch ho.2⟩, fun _ _ _ _ hs => hs⟩

theorem Models.insertScalar (h : Models m t) {kind : RecordKind} {value : Nat} (hl : kind ≠ .len)
    (hg : kind ≠ .group) (hv : value < 2 ^ 64) (h32 : kind = .i32 → value < 2 ^ 32)
    (he : m.insertScalar anchor field kind value = (m', .ok id)) :
    m'.StandsFor ((entries t).put anchor id (.authored field kind (.word value))) := by
  unfold Machine.insertScalar at he
  split at he
  · cases he
  next plan hplan =>
  split at he
  · cases he
  next hmint =>
  split at he
  · cases he
  next hslot =>
  cases he
  obtain ⟨rfl, hfit⟩ := mintRow_eq hmint
  obtain rfl := PayloadStore.mint_eq hslot
  exact h.applyInsert (resolveAnchor_ok h hplan) hfit (.word h hl hg hv h32)

theorem Models.insertPayload (h : Models m t) {supply : Supply}
    (he : m.insertPayload anchor field supply = (m', .ok id)) :
    m'.StandsFor ((entries t).put anchor id (.authored field .len (.payload supply.bytes))) := by
  unfold Machine.insertPayload at he
  split at he
  · cases he
  next plan hplan =>
  split at he
  · cases he
  next hmint =>
  split at he
  · cases he
  next hcap =>
  split at he
  · cases he
  next hpush =>
  cases he
  obtain ⟨rfl, hfit⟩ := mintRow_eq hmint
  obtain ⟨rfl, hp⟩ := PayloadStore.push_ok hpush
  exact h.applyInsert (resolveAnchor_ok h hplan) hfit (.payload h (Nat.not_lt.mp hcap) hp)

theorem Models.insertGroup (h : Models m t)
    (he : m.insertGroup anchor field = (m', .ok id)) :
    m'.StandsFor ((entries t).put anchor id (.authored field .group .kept)) := by
  unfold Machine.insertGroup at he
  split at he
  · cases he
  next plan hplan =>
  split at he
  · cases he
  next hmint =>
  cases he
  obtain ⟨rfl, hfit⟩ := mintRow_eq hmint
  exact h.applyInsert (resolveAnchor_ok h hplan) hfit (.group m)

end Insertions

/-! ## Frames -/

section Frames

open Machine

variable {m m' : Machine} {t : Forest Node}

/-- The machine while a frame stands open. -/
def Machine.framing (m : Machine) (bytes : List UInt8) : Machine :=
  { m with payloads := m.payloads.staged bytes }

theorem finish_ok {op : WriteOp} {mark : Nat} {declared : Option Nat} {id : Nat}
    (he : m.finish op mark declared = (m', .ok id)) : m.apply op mark = (m', .ok id) := by
  unfold finish at he
  dsimp only at he
  split at he
  · cases he
  · split at he
    · next happly =>
      cases he
      exact happly
    · cases he

theorem apply_error {op : WriteOp} {fault : EditFault} {mark : Nat}
    (he : m.apply op mark = (m', .error fault)) : m' = m := by
  unfold apply at he
  cases op with
  | set handle =>
    dsimp only at he
    split at he
    · split at he
      · cases he
        rfl
      · cases he
    · split at he
      · cases he
        rfl
      · cases he
    · cases he
    · cases he
  | insert plan field =>
    dsimp only at he
    split at he
    · cases he
      rfl
    · split at he
      · cases he
        rfl
      · cases he

/-- What a door was opened on. -/
inductive Admits (m : Machine) (len : Nat) : Door → WriteOp → Prop where
  | set {handle : Nat} {c : Cell Row} : m.rows[handle]? = some c → c.body.kind = .len →
      c.body.opened = false → len ≤ PayloadLen.max → Admits m len (.set handle) (.set handle)
  | insert {anchor : InsertAt} {field : FieldNumber} {plan : Plan} :
      m.resolveAnchor anchor = .ok plan → len ≤ PayloadLen.max →
      Admits m len (.insert anchor field) (.insert plan field)

theorem admitDoor_ok {door : Door} {len : Nat} {op : WriteOp} (he : m.admitDoor door len = .ok op) :
    Admits m len door op := by
  unfold admitDoor at he
  cases door with
  | set handle =>
    dsimp only at he
    split at he
    · cases he
    · next hgate =>
      cases he
      obtain ⟨hc, hk, ho, hcap⟩ := payloadSetGate_ok hgate
      exact .set hc hk ho hcap
  | insert anchor field =>
    dsimp only at he
    split at he
    · cases he
    · next hplan =>
      split at he
      · cases he
      · next hcap =>
        cases he
        exact .insert hplan (Nat.not_lt.mp hcap)

theorem beginFrame_ok {door : Door} {declared : Option Nat} {op : WriteOp}
    (he : m.beginFrame door declared = .ok op) : Admits m (declared.getD 0) door op := by
  unfold beginFrame at he
  split at he
  · cases he
  · next hadmit =>
    split at he
    · cases he
    · cases he
      exact admitDoor_ok hadmit

theorem Admits.len_le {door : Door} {declared : Option Nat} {op : WriteOp}
    (h : Admits m (declared.getD 0) door op) {len : Nat} (hd : declared = some len) :
    len ≤ PayloadLen.max := by
  subst hd
  cases h with
  | set _ _ _ hcap => exact hcap
  | insert _ hcap => exact hcap

/-- A frame stages no more than a payload holds. -/
theorem write_le (s : PayloadStore) {declared : Option Nat} {bytes chunk : List UInt8}
    (hd : ∀ len, declared = some len → len ≤ PayloadLen.max)
    (hok : (write s.stageMark declared (s.staged bytes) chunk).2.isOk = true) :
    (bytes ++ chunk).length ≤ PayloadLen.max := by
  unfold write at hok
  dsimp only at hok
  rw [PayloadStore.stagedLen_staged] at hok
  rw [List.length_append]
  cases declared with
  | none =>
    dsimp only at hok
    split at hok
    · cases hok
    · omega
  | some len =>
    have := hd len rfl
    dsimp only at hok
    split at hok
    · cases hok
    · omega

theorem staged_le (s : PayloadStore) {declared : Option Nat} {bytes : List UInt8}
    (hd : ∀ len, declared = some len → len ≤ PayloadLen.max) (chunks : List (List UInt8))
    (hb : bytes.length ≤ PayloadLen.max) (handle : Option Nat) :
    (bytes ++ Framed.staged ⟨(writes s.stageMark declared (s.staged bytes) chunks).2, handle⟩
      chunks).length ≤ PayloadLen.max := by
  induction chunks generalizing bytes with
  | nil =>
    show (bytes ++ []).length ≤ _
    rwa [List.append_nil]
  | cons chunk chunks ih =>
    unfold writes
    dsimp only
    rw [write_staged]
    unfold Framed.staged
    rw [List.zip_cons_cons, List.filter_cons]
    cases hok : (write s.stageMark declared (s.staged bytes) chunk).2 with
    | error fault =>
      have hnone : (if (Except.error fault : Except EditFault Unit).isOk = true then chunk
          else []) = [] := rfl
      rw [hnone, List.append_nil]
      exact ih hb
    | ok u =>
      have := ih (write_le s hd (by rw [hok]; rfl))
      rw [List.append_assoc] at this
      exact this

/-- A published frame is the payload set, or put, that it staged. -/
theorem Models.apply (h : Models m t) {len : Nat} {door : Door} {op : WriteOp}
    (hop : Admits m len door op) {bytes : List UInt8} (hcap : bytes.length ≤ PayloadLen.max)
    {id : Nat} (he : (m.framing bytes).apply op m.payloads.stageMark = (m', .ok id)) :
    m'.StandsFor
      (match door with
      | .set handle => (entries t).modify handle (Doc.setPayload bytes)
      | .insert anchor field =>
        (entries t).put anchor id (.authored field .len (.payload bytes))) := by
  unfold Machine.apply at he
  cases hop with
  | @set handle c hc hk ho =>
    have hrow : (m.framing bytes).row handle = c := Machine.row_of_cell (m := m.framing bytes) hc
    obtain ⟨n, kids, -, -, hbody, hs⟩ := h.at_row hc
    dsimp only at he
    rw [hrow] at he
    have hreset : c.body.base = .replaced ∨ c.body.base = .inserted →
        Supplied m.payloads ((m.payloads.staged bytes).stageFinishSet c.body.value m.payloads.stageMark)
          c.body c.body.value bytes := by
      intro hb
      refine .reset hb rfl (PayloadStore.stageFinishSet_ok ?_)
      rw [hbody] at hb hk ⊢
      exact hs.sound.said.payload_lt ⟨hb, hk⟩
    split at he
    · next hb =>
      split at he
      · cases he
      · next hp =>
        cases he
        obtain ⟨rfl, hpushed⟩ := PayloadStore.stageFinishPush_ok hp
        exact h.payloadSetCommit hc hk ho hcap (.pushed hb rfl hpushed)
    · next hb => exact absurd hb (h.plain handle c hc).base
    · next hb =>
      cases he
      exact h.payloadSetCommit hc hk ho hcap (hreset (.inl hb))
    · next hb =>
      cases he
      exact h.payloadSetCommit hc hk ho hcap (hreset (.inr hb))
  | insert hplan =>
    dsimp only at he
    split at he
    · cases he
    next hmint =>
    split at he
    · cases he
    next hp =>
    cases he
    obtain ⟨rfl, hfit⟩ := mintRow_eq hmint
    obtain ⟨rfl, hpushed⟩ := PayloadStore.stageFinishPush_ok hp
    exact h.applyInsert (resolveAnchor_ok h hplan) hfit (.payload h hcap hpushed)

theorem framing_abandon (m : Machine) (bytes : List UInt8) :
    (m.framing bytes).abandon m.payloads.stageMark = m := by
  unfold framing abandon
  dsimp only
  rw [PayloadStore.stageAbandon_staged]

/-- A frame's writes stage the chunks they take. -/
theorem writes_framing (m : Machine) (declared : Option Nat) (chunks : List (List UInt8))
    (handle : Option Nat) :
    ({ m with payloads := (writes m.payloads.stageMark declared m.payloads chunks).1 } : Machine) =
      m.framing (Framed.staged
        ⟨(writes m.payloads.stageMark declared m.payloads chunks).2, handle⟩ chunks) := by
  have h := writes_staged m.payloads declared [] chunks handle
  rw [PayloadStore.staged_nil, List.nil_append] at h
  rw [h]
  rfl

/-- A frame that was dropped leaves nothing; one that was finished is its payload, set or put. -/
theorem Models.frame (h : Models m t) {door : Door} {declared : Option Nat}
    {chunks : List (List UInt8)} {finished : Bool} {f : Framed}
    (he : m.frame door declared chunks finished = (m', .ok f)) :
    m'.StandsFor ((entries t).edit m.dialect m.standard m.limit
      (.frame door declared chunks finished) (.ok (.framed f))) := by
  unfold Machine.frame at he
  split at he
  · cases he
  next op hbegin =>
  have hadmits := beginFrame_ok hbegin
  dsimp only at he
  cases finished with
  | false =>
    rw [if_neg nofun, writes_framing m declared chunks none, framing_abandon] at he
    cases he
    refine ⟨t, h, ?_⟩
    cases door <;> rfl
  | true =>
    rw [if_pos rfl, writes_framing m declared chunks none] at he
    split at he
    · next id hfinish =>
      cases he
      have hnil : ([] : List UInt8).length ≤ PayloadLen.max := Nat.zero_le _
      have hcap := staged_le m.payloads (fun len hd => hadmits.len_le hd) chunks hnil none
      rw [PayloadStore.staged_nil, List.nil_append] at hcap
      have hm := h.apply hadmits hcap (finish_ok hfinish)
      cases door <;> exact hm
    · cases he

end Frames

/-! ## Runs -/

section Perform

variable {m m' : Machine} {t : Forest Node}

theorem answer_ok {α : Type} {f : α → Reply} {r : Machine × Except EditFault α} {reply : Reply}
    (he : answer f r = (m', .ok reply)) : ∃ a, r = (m', .ok a) ∧ reply = f a := by
  obtain ⟨m₁, x⟩ := r
  cases x with
  | error fault => cases he
  | ok a =>
    cases he
    exact ⟨a, rfl, rfl⟩

/-- An accepted command is its edit of the document. -/
theorem Models.perform (h : Models m t) {command : Command} {reply : Reply}
    (he : m.perform command = (m', .ok reply)) :
    m'.StandsFor ((entries t).edit m.dialect m.standard m.limit command (.ok reply)) := by
  have h64 : ∀ v : UInt64, v.toNat < 2 ^ 64 := fun v => v.toNat_lt
  have h32 : ∀ v : UInt32, v.toNat < 2 ^ 32 := fun v => v.toNat_lt
  have hwide : ∀ v : UInt32, v.toNat < 2 ^ 64 :=
    fun v => Nat.lt_trans (h32 v) (by decide)
  unfold Machine.perform at he
  cases command with
  | descend handle =>
    obtain ⟨d, hd, rfl⟩ := answer_ok he
    exact h.descend hd
  | setVarint handle value =>
    obtain ⟨_, hd, rfl⟩ := answer_ok he
    exact h.setScalar (by decide) (by decide) (h64 value) (by nofun) hd
  | setI32 handle bits =>
    obtain ⟨_, hd, rfl⟩ := answer_ok he
    exact h.setScalar (by decide) (by decide) (hwide bits) (fun _ => h32 bits) hd
  | setI64 handle bits =>
    obtain ⟨_, hd, rfl⟩ := answer_ok he
    exact h.setScalar (by decide) (by decide) (h64 bits) (by nofun) hd
  | setPayload handle supply =>
    obtain ⟨_, hd, rfl⟩ := answer_ok he
    exact h.setPayload hd
  | delete handle =>
    obtain ⟨_, hd, rfl⟩ := answer_ok he
    exact h.delete hd
  | insertVarint anchor field value =>
    obtain ⟨_, hd, rfl⟩ := answer_ok he
    exact h.insertScalar (by decide) (by decide) (h64 value) (by nofun) hd
  | insertI32 anchor field bits =>
    obtain ⟨_, hd, rfl⟩ := answer_ok he
    exact h.insertScalar (by decide) (by decide) (hwide bits) (fun _ => h32 bits) hd
  | insertI64 anchor field bits =>
    obtain ⟨_, hd, rfl⟩ := answer_ok he
    exact h.insertScalar (by decide) (by decide) (h64 bits) (by nofun) hd
  | insertPayload anchor field supply =>
    obtain ⟨_, hd, rfl⟩ := answer_ok he
    exact h.insertPayload hd
  | insertGroup anchor field =>
    obtain ⟨_, hd, rfl⟩ := answer_ok he
    exact h.insertGroup hd
  | frame door declared chunks finished =>
    obtain ⟨_, hd, rfl⟩ := answer_ok he
    exact h.frame hd

/-- What no command changes. -/
structure Same (m m' : Machine) : Prop where
  dialect : m'.dialect = m.dialect
  standard : m'.standard = m.standard
  source : m'.source = m.source
  limit : m'.limit = m.limit

theorem Same.refl (m : Machine) : Same m m := ⟨rfl, rfl, rfl, rfl⟩

theorem Same.trans {m₁ : Machine} (h : Same m m₁) (h' : Same m₁ m') : Same m m' :=
  ⟨h'.dialect.trans h.dialect, h'.standard.trans h.standard, h'.source.trans h.source,
    h'.limit.trans h.limit⟩

theorem same_applyInsert (m : Machine) (words : List Nat) (payloads : PayloadStore) (plan : Plan)
    (id : Nat) (field : FieldNumber) (kind : RecordKind) (value : Nat) :
    Same m (({ m with words, payloads } : Machine).applyInsert plan id field kind value) := by
  rcases plan with ⟨_ | p, _ | s⟩ <;> exact ⟨rfl, rfl, rfl, rfl⟩

theorem same_descend (m : Machine) (handle : Nat) : Same m (m.descend handle).1 := by
  have hpark : ∀ fault, Same m (m.park handle fault).1 := by
    intro fault
    unfold Machine.park
    split <;> exact ⟨rfl, rfl, rfl, rfl⟩
  unfold Machine.descend
  split
  · exact .refl m
  · dsimp only
    repeat' split
    any_goals exact .refl m
    unfold Machine.enter
    dsimp only
    split
    · exact hpark _
    · split
      · exact ⟨rfl, rfl, rfl, rfl⟩
      · exact hpark _
      · exact hpark _
      · exact .refl m

theorem same_setScalar (m : Machine) (handle : Nat) (want : RecordKind) (value : Nat) :
    Same m (m.setScalar handle want value).1 := by
  unfold Machine.setScalar
  dsimp only
  repeat' split
  all_goals exact ⟨rfl, rfl, rfl, rfl⟩

theorem same_setPayload (m : Machine) (handle : Nat) (supply : Supply) :
    Same m (m.setPayload handle supply).1 := by
  unfold Machine.setPayload
  repeat' split
  all_goals exact ⟨rfl, rfl, rfl, rfl⟩

theorem same_delete (m : Machine) (handle : Nat) : Same m (m.delete handle).1 := by
  unfold Machine.delete
  repeat' split
  all_goals exact ⟨rfl, rfl, rfl, rfl⟩

theorem same_insertScalar (m : Machine) (anchor : InsertAt) (field : FieldNumber)
    (kind : RecordKind) (value : Nat) : Same m (m.insertScalar anchor field kind value).1 := by
  unfold Machine.insertScalar
  repeat' split
  any_goals exact .refl m
  exact same_applyInsert m _ _ _ _ _ _ _

theorem same_insertPayload (m : Machine) (anchor : InsertAt) (field : FieldNumber)
    (supply : Supply) : Same m (m.insertPayload anchor field supply).1 := by
  unfold Machine.insertPayload
  repeat' split
  any_goals exact .refl m
  exact same_applyInsert m _ _ _ _ _ _ _

theorem same_insertGroup (m : Machine) (anchor : InsertAt) (field : FieldNumber) :
    Same m (m.insertGroup anchor field).1 := by
  unfold Machine.insertGroup
  repeat' split
  any_goals exact .refl m
  exact same_applyInsert m _ _ _ _ _ _ _

theorem same_apply (m : Machine) (op : Machine.WriteOp) (mark : Nat) :
    Same m (m.apply op mark).1 := by
  unfold Machine.apply
  cases op with
  | set handle =>
    dsimp only
    repeat' split
    all_goals exact ⟨rfl, rfl, rfl, rfl⟩
  | insert plan field =>
    dsimp only
    repeat' split
    any_goals exact .refl m
    exact same_applyInsert m _ _ _ _ _ _ _

theorem same_frame (m : Machine) (door : Machine.Door) (declared : Option Nat)
    (chunks : List (List UInt8)) (finished : Bool) :
    Same m (m.frame door declared chunks finished).1 := by
  have hfinish : ∀ {m m' : Machine} {op mark x}, m.finish op mark declared = (m', x) →
      Same m m' := by
    intro m m' op mark x he
    have happly := same_apply m op mark
    unfold Machine.finish at he
    dsimp only at he
    split at he
    · cases he
      exact ⟨rfl, rfl, rfl, rfl⟩
    · split at he
      · next hm =>
        cases he
        rw [hm] at happly
        exact happly
      · next hm =>
        cases he
        rw [hm] at happly
        exact happly.trans ⟨rfl, rfl, rfl, rfl⟩
  unfold Machine.frame
  split
  · exact .refl m
  · dsimp only
    split
    · split
      · next he =>
        have hs := hfinish he
        exact ⟨hs.dialect, hs.standard, hs.source, hs.limit⟩
      · next he =>
        have hs := hfinish he
        exact ⟨hs.dialect, hs.standard, hs.source, hs.limit⟩
    · exact ⟨rfl, rfl, rfl, rfl⟩

theorem same_perform (m : Machine) (command : Command) : Same m (m.perform command).1 := by
  cases command with
  | descend handle => exact same_descend m handle
  | setVarint handle value => exact same_setScalar m handle _ _
  | setI32 handle bits => exact same_setScalar m handle _ _
  | setI64 handle bits => exact same_setScalar m handle _ _
  | setPayload handle supply => exact same_setPayload m handle supply
  | delete handle => exact same_delete m handle
  | insertVarint anchor field value => exact same_insertScalar m anchor field _ _
  | insertI32 anchor field bits => exact same_insertScalar m anchor field _ _
  | insertI64 anchor field bits => exact same_insertScalar m anchor field _ _
  | insertPayload anchor field supply => exact same_insertPayload m anchor field supply
  | insertGroup anchor field => exact same_insertGroup m anchor field
  | frame door declared chunks finished => exact same_frame m door declared chunks finished

/-! ### Refusals -/

theorem answer_error {α : Type} {f : α → Reply} {r : Machine × Except EditFault α}
    {fault : EditFault} (he : answer f r = (m', .error fault)) : r = (m', .error fault) := by
  obtain ⟨m₁, x⟩ := r
  cases x with
  | error f =>
    cases he
    rfl
  | ok a => cases he

theorem descend_refused {handle : Nat} {fault : EditFault}
    (he : m.descend handle = (m', .error fault)) : m' = m := by
  have hpark : ∀ f, m.park handle f = (m', .error fault) → m' = m := by
    intro f hp
    unfold Machine.park at hp
    split at hp
    · cases hp
      rfl
    · cases hp
  unfold Machine.descend at he
  dsimp only at he
  repeat' split at he
  any_goals
    cases he
    try rfl
  unfold Machine.enter at he
  dsimp only at he
  split at he
  · exact hpark _ he
  · split at he
    · cases he
    · exact hpark _ he
    · exact hpark _ he
    · cases he
      rfl

/-- A refused frame leaves no byte it staged. -/
theorem frame_refused {door : Machine.Door} {declared : Option Nat} {chunks : List (List UInt8)}
    {finished : Bool} {fault : EditFault}
    (he : m.frame door declared chunks finished = (m', .error fault)) : m' = m := by
  unfold Machine.frame at he
  split at he
  · cases he
    rfl
  next op hbegin =>
  dsimp only at he
  rw [writes_framing m declared chunks none] at he
  split at he
  · split at he
    · cases he
    · next hfinish =>
      cases he
      unfold Machine.finish at hfinish
      dsimp only at hfinish
      split at hfinish
      · cases hfinish
        exact framing_abandon _ _
      · split at hfinish
        · cases hfinish
        · next happly =>
          cases hfinish
          rw [apply_error happly]
          exact framing_abandon _ _
  · cases he

theorem setScalar_refused {handle value : Nat} {want : RecordKind} {fault : EditFault}
    (he : m.setScalar handle want value = (m', .error fault)) : m' = m := by
  unfold Machine.setScalar at he
  dsimp only at he
  repeat' split at he
  all_goals
    cases he
    try rfl

theorem setPayload_refused {handle : Nat} {supply : Supply} {fault : EditFault}
    (he : m.setPayload handle supply = (m', .error fault)) : m' = m := by
  unfold Machine.setPayload at he
  repeat' split at he
  all_goals
    cases he
    try rfl

theorem delete_refused {handle : Nat} {fault : EditFault}
    (he : m.delete handle = (m', .error fault)) : m' = m := by
  unfold Machine.delete at he
  repeat' split at he
  all_goals
    cases he
    try rfl

theorem insertScalar_refused {anchor : InsertAt} {field : FieldNumber} {kind : RecordKind}
    {value : Nat} {fault : EditFault}
    (he : m.insertScalar anchor field kind value = (m', .error fault)) : m' = m := by
  unfold Machine.insertScalar at he
  repeat' split at he
  all_goals
    cases he
    try rfl

theorem insertPayload_refused {anchor : InsertAt} {field : FieldNumber} {supply : Supply}
    {fault : EditFault} (he : m.insertPayload anchor field supply = (m', .error fault)) :
    m' = m := by
  unfold Machine.insertPayload at he
  repeat' split at he
  all_goals
    cases he
    try rfl

theorem insertGroup_refused {anchor : InsertAt} {field : FieldNumber} {fault : EditFault}
    (he : m.insertGroup anchor field = (m', .error fault)) : m' = m := by
  unfold Machine.insertGroup at he
  repeat' split at he
  all_goals
    cases he
    try rfl

/-- A refused command leaves the machine. -/
theorem perform_refused {command : Command} {fault : EditFault}
    (he : m.perform command = (m', .error fault)) : m' = m := by
  cases command with
  | descend handle => exact descend_refused (answer_error he)
  | setVarint handle value => exact setScalar_refused (answer_error he)
  | setI32 handle bits => exact setScalar_refused (answer_error he)
  | setI64 handle bits => exact setScalar_refused (answer_error he)
  | setPayload handle supply => exact setPayload_refused (answer_error he)
  | delete handle => exact delete_refused (answer_error he)
  | insertVarint anchor field value => exact insertScalar_refused (answer_error he)
  | insertI32 anchor field bits => exact insertScalar_refused (answer_error he)
  | insertI64 anchor field bits => exact insertScalar_refused (answer_error he)
  | insertPayload anchor field supply => exact insertPayload_refused (answer_error he)
  | insertGroup anchor field => exact insertGroup_refused (answer_error he)
  | frame door declared chunks finished => exact frame_refused (answer_error he)

end Perform

end ProtobufEdit.Editor
