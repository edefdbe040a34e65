import ProtobufEdit.Revise.Core

/-!
# Staged frames

A payload handed over in chunks: finished, the frame is one command on the chunks it took;
refused or dropped, it is nothing. The copying store and the mixed one share the byte column a
frame stages in and differ in the table a finish mints into.
-/

namespace ProtobufEdit.Revise

open Wire Wire.Groupless Arena
open Editor (InsertAt)
open Machine (Door FrameOp Framed write writes)

/-! ## The chunks a frame took -/

/-- The chunks whose write was answered with `ok`, end to end. -/
def accepted : List (List UInt8) → List (Except EditFault Unit) → List UInt8
  | chunk :: chunks, .ok _ :: answers => chunk ++ accepted chunks answers
  | _ :: chunks, .error _ :: answers => accepted chunks answers
  | _, _ => []

/-- A frame opened on `s` has taken `payload`, and the column holds it. -/
structure Took (s : Store) (declared : Option Nat) (s' : Store) (payload : List UInt8) : Prop where
  staged : Staged s declared s' payload
  fits : s.bytes.length + payload.length ≤ columnMax

/-- A declared length was reserved at the door. -/
def Reserved (s : Store) (declared : Option Nat) : Prop :=
  ∀ len, declared = some len → s.bytes.length + len ≤ columnMax

section Took

variable {s s' : Store} {declared : Option Nat} {payload : List UInt8}

theorem took_nil (declared : Option Nat) (hs : s.bytes.length ≤ columnMax) : Took s declared s [] where
  staged := ⟨by simp, Nat.zero_le _⟩
  fits := hs

theorem Took.push {chunk : List UInt8} (h : Took s declared s' payload)
    (hlen : (payload ++ chunk).length ≤ declared.getD PayloadLen.max)
    (hfits : s.bytes.length + (payload ++ chunk).length ≤ columnMax) :
    Took s declared { s' with bytes := s'.bytes ++ chunk } (payload ++ chunk) where
  staged := by
    obtain ⟨⟨rfl, -⟩, -⟩ := h
    refine ⟨?_, hlen⟩
    simp only [List.append_assoc]
  fits := hfits

/-- One write stages its chunk or answers a fault. -/
theorem Took.write (h : Took s declared s' payload) (hr : Reserved s declared)
    (chunk : List UInt8) :
    (∃ fault, Machine.write s.stageMark declared s' chunk = (s', .error fault)) ∨
    (∃ s'', Machine.write s.stageMark declared s' chunk = (s'', .ok ()) ∧
      Took s declared s'' (payload ++ chunk)) := by
  have htotal : s'.stageMark - s.stageMark + chunk.length = (payload ++ chunk).length := by
    rw [h.staged.1]
    simp only [Store.stageMark, List.length_append]
    omega
  have hbytes : s'.bytes.length + chunk.length = s.bytes.length + (payload ++ chunk).length := by
    rw [h.staged.1]
    simp only [List.length_append]
    omega
  unfold Machine.write
  simp only [htotal]
  cases declared with
  | none =>
    by_cases hmax : PayloadLen.max < (payload ++ chunk).length
    · exact .inl ⟨_, if_pos hmax⟩
    · simp only [if_neg hmax]
      by_cases hcol : columnMax < s'.bytes.length + chunk.length
      · simp only [Store.stageChunk, if_pos hcol]
        exact .inl ⟨_, rfl⟩
      · simp only [Store.stageChunk, if_neg hcol]
        exact .inr ⟨_, rfl, h.push (Nat.not_lt.mp hmax) (by omega)⟩
  | some len =>
    by_cases hmax : len < (payload ++ chunk).length
    · exact .inl ⟨_, if_pos hmax⟩
    · simp only [if_neg hmax]
      have hcol := hr len rfl
      exact .inr ⟨_, rfl, h.push (Nat.not_lt.mp hmax) (by omega)⟩

theorem Took.writes (h : Took s declared s' payload) (hr : Reserved s declared)
    (chunks : List (List UInt8)) :
    Took s declared (Machine.writes s.stageMark declared s' chunks).1
      (payload ++ accepted chunks (Machine.writes s.stageMark declared s' chunks).2) := by
  induction chunks generalizing s' payload with
  | nil =>
    show Took s declared s' (payload ++ [])
    rwa [List.append_nil]
  | cons chunk chunks ih =>
    show Took s declared (Machine.writes s.stageMark declared
      (Machine.write s.stageMark declared s' chunk).1 chunks).1 (payload ++ accepted _ (_ :: _))
    rcases h.write hr chunk with ⟨fault, he⟩ | ⟨s'', he, h'⟩
    · rw [he]
      exact ih h
    · rw [he]
      have := ih h'
      rwa [List.append_assoc] at this

/-- What a finish mints is what a push of the payload mints. -/
theorem Took.finish (h : Took s declared s' payload) :
    s'.stageFinish s.stageMark = s.pushBytes payload := by
  obtain ⟨⟨rfl, -⟩, hfits⟩ := h
  unfold Store.stageFinish Store.pushBytes
  cases hm : mint s.spans.length with
  | none => rfl
  | some value =>
    simp only [Option.map_some, if_neg (Nat.not_lt.mpr hfits), Store.stageMark,
      List.length_append, Nat.add_sub_cancel_left]

end Took

/-! ## One command or nothing -/

/-- A frame's two closes against the command it stands for. -/
structure OneCommand {σ : Type} (m : σ) (frame : Bool → σ × Except EditFault Framed)
    (install : List UInt8 → σ × Except EditFault Nat) (chunks : List (List UInt8)) : Prop where
  finished : ∀ m' framed, frame true = (m', .ok framed) →
    ∃ id, framed.handle = some id ∧ install (accepted chunks framed.writes) = (m', .ok id)
  refused : ∀ close m' fault, frame close = (m', .error fault) → m' = m
  dropped : (frame false).1 = m

namespace Machine

variable {standard : Standard} {m : Machine standard}

/-- `set_payload` or `insert_payload`, at a frame's door. -/
def install (m : Machine standard) (door : Door) (payload : List UInt8) :
    Machine standard × Except EditFault Nat :=
  match door with
  | .set handle =>
    ((m.setPayload handle payload).1, (m.setPayload handle payload).2.map fun _ => handle)
  | .insert anchor field => m.insertPayload anchor field payload

theorem beginFrame_reserved {door : Door} {declared : Option Nat} {op : FrameOp}
    (h : m.beginFrame door declared = .ok op) :
    m.admitDoor door = .ok op ∧ declared.getD PayloadLen.max ≤ PayloadLen.max ∧
      Reserved m.store declared := by
  unfold beginFrame at h
  cases ha : m.admitDoor door with
  | error fault => rw [ha] at h; cases h
  | ok op' =>
    rw [ha] at h
    cases declared with
    | none =>
      cases h
      exact ⟨rfl, Nat.le_refl _, nofun⟩
    | some len =>
      simp only at h
      split at h
      · cases h
      · next hlen =>
        split at h
        · next hr =>
          cases h
          refine ⟨rfl, Nat.not_lt.mp hlen, ?_⟩
          rintro _ ⟨⟩
          exact of_decide_eq_true hr
        · cases h

theorem publish_took {door : Door} {op : FrameOp} {declared : Option Nat} {store : Store}
    {payload : List UInt8} {m' : Machine standard} {id : Nat} (hop : m.admitDoor door = .ok op)
    (hd : declared.getD PayloadLen.max ≤ PayloadLen.max) (ht : Took m.store declared store payload)
    (h : (m.withStore store).publish op m.store.stageMark = (m', .ok id)) :
    m.install door payload = (m', .ok id) := by
  have hfinish : (m.withStore store).store.stageFinish m.store.stageMark =
      m.store.pushBytes payload := ht.finish
  have hlen : ¬ PayloadLen.max < payload.length := Nat.not_lt.mpr (ht.staged.2.trans hd)
  cases door with
  | set handle =>
    obtain ⟨witness, hgate, rfl⟩ := map_ok hop
    simp only [publish, hfinish] at h
    simp only [install, setPayload, hgate, if_neg hlen]
    cases hp : m.store.pushBytes payload with
    | none => rw [hp] at h; cases h
    | some p =>
      rw [hp] at h
      cases h
      rfl
  | insert anchor field =>
    obtain ⟨plan, hplan, rfl⟩ := map_ok hop
    have hmint : mintRow (m.withStore store).rows = mintRow m.rows := rfl
    simp only [publish, hfinish, hmint] at h
    simp only [install, insertPayload, hplan]
    cases hid : mintRow m.rows with
    | none => rw [hid] at h; cases h
    | some row =>
      rw [hid] at h
      simp only [if_neg hlen]
      cases hp : m.store.pushBytes payload with
      | none => rw [hp] at h; cases h
      | some p =>
        rw [hp] at h
        cases h
        rfl

theorem finish_ok {op : FrameOp} {mark : Nat} {declared : Option Nat} {m' : Machine standard}
    {id : Nat} (h : m.finish op mark declared = (m', .ok id)) :
    m.publish op mark = (m', .ok id) := by
  unfold finish at h
  extract_lets staged at h
  split_ifs at h
  · cases h
  · cases hp : m.publish op mark with
    | mk m'' r =>
      rw [hp] at h
      cases r with
      | error fault => cases h
      | ok id' => exact h

/-- A frame of the copying machine. -/
theorem frame_oneCommand (door : Door) (declared : Option Nat) (chunks : List (List UInt8))
    (hm : m.store.bytes.length ≤ columnMax) :
    OneCommand m (m.frame door declared chunks) (m.install door) chunks where
  finished := by
    intro m' framed h
    unfold frame at h
    cases hb : m.beginFrame door declared with
    | error fault => rw [hb] at h; cases h
    | ok op =>
      obtain ⟨hop, hd, hr⟩ := beginFrame_reserved hb
      have ht := (took_nil declared hm).writes hr chunks
      rw [hb] at h
      simp only [if_true] at h
      cases hf : (m.withStore (Machine.writes m.store.stageMark declared m.store chunks).1).finish
          op m.store.stageMark declared with
      | mk m'' r =>
        rw [hf] at h
        cases r with
        | error fault => cases h
        | ok id =>
          cases h
          exact ⟨id, rfl, publish_took hop hd ht (finish_ok hf)⟩
  refused close m' fault h := by
    have hr := (frame_acts (.frame door declared chunks close) door declared chunks close).refused fault (congrArg Prod.snd h)
    rwa [h] at hr
  dropped := by
    unfold frame
    cases hb : m.beginFrame door declared with
    | error fault => rfl
    | ok op =>
      obtain ⟨-, -, hr⟩ := beginFrame_reserved hb
      exact Machine.dropped ((took_nil _ hm).writes hr chunks).staged

/-! ## The byte column -/

theorem writeState_store (id : Nat) (edit : Edit) : (m.writeState id edit).store = m.store := by
  rw [← bare_store, writeState_bare, bare_store]
  unfold turned
  extract_lets r written
  split <;> rfl

theorem logPush_store (id : Nat) (past : Edit) : (m.logPush id past).store = m.store := by
  rw [← bare_store, logPush_bare]
  rfl

theorem applyEdit_store (id : Nat) (edit : Edit) : (m.applyEdit id edit).store = m.store := by
  unfold applyEdit
  rw [writeState_store, logPush_store]

theorem splice_store (plan : Plan) (id : Nat) (r : Row) : (m.splice plan id r).store = m.store := by
  unfold splice
  extract_lets next pushed linked
  have hlinked : linked.store = m.store := by
    unfold linked
    split
    · rfl
    · split <;> rfl
  split
  · cases plan.parent <;> exact hlinked
  · exact hlinked

theorem applyInsert_store (plan : Plan) (id : Nat) (r : Row) (edit : Edit) :
    (m.applyInsert plan id r edit).store = m.store := by
  unfold applyInsert
  rw [writeState_store, logPush_store, splice_store]

theorem applyMove_store (src id : Nat) : (m.applyMove src id).store = m.store := by
  unfold applyMove
  extract_lets moved
  rw [writeState_store]
  show moved.store = m.store
  rw [← bare_store, raise_bare, bare_store]
  exact logPush_store _ _

theorem enter_store (id : Nat) (r : Row) : (m.enter id r).1.store = m.store := by
  have hpark : ∀ fault, (m.park id fault).1.store = m.store := fun fault => by
    unfold park
    split <;> rfl
  unfold enter
  cases m.interior r with
  | error fault => rfl
  | ok w =>
    simp only
    split
    · split
      · rfl
      · next m' hseal =>
        unfold sealScan at hseal
        extract_lets run at hseal
        split_ifs at hseal <;> cases hseal <;> rfl
    · exact hpark _
    · exact hpark _
    · rfl

theorem revert_store : m.revert.1.store = m.store := by
  have hpop : ∀ step log, (m.logPop step log).store = m.store := fun step log => by
    rw [← bare_store, logPop_bare]
    rfl
  unfold revert
  split
  · rfl
  · extract_lets popped
    split
    · show (popped.revertMove _ _).store = m.store
      unfold revertMove
      extract_lets restored
      rw [writeState_store]
      show restored.store = m.store
      rw [← bare_store, lower_bare, bare_store]
      exact hpop _ _
    · exact (writeState_store _ _).trans (hpop _ _)

/-- The byte column's end is in the offset domain. -/
def Bounded (m : Machine standard) : Prop := m.store.bytes.length ≤ columnMax

theorem pushBytes_bounded {store : Store} {payload : List UInt8} {value : Nat}
    (h : m.store.pushBytes payload = some (store, value)) : store.bytes.length ≤ columnMax := by
  unfold Store.pushBytes at h
  split at h
  · cases h
  · split at h
    · cases h
    · next hcol =>
      cases h
      simpa using hcol

theorem setScalar_bounded {id : Nat} {kind : RecordKind} {pushed : Option (Store × Nat)}
    (hpushed : ∀ store value, pushed = some (store, value) → store.bytes = m.store.bytes)
    (hm : m.Bounded) : (m.setScalar id kind pushed).1.Bounded := by
  unfold setScalar
  split
  · exact hm
  · split
    · exact hm
    · next store value =>
      show (applyEdit _ _ _).store.bytes.length ≤ columnMax
      rw [applyEdit_store]
      exact (congrArg List.length (hpushed store value rfl)).trans_le hm

theorem insertScalar_bounded {anchor : InsertAt} {field : FieldNumber} {kind : RecordKind}
    {pushed : Option (Store × Nat)}
    (hpushed : ∀ store value, pushed = some (store, value) → store.bytes = m.store.bytes)
    (hm : m.Bounded) : (m.insertScalar anchor field kind pushed).1.Bounded := by
  unfold insertScalar
  split
  · exact hm
  · split
    · exact hm
    · split
      · exact hm
      · next store value =>
        show (applyInsert _ _ _ _ _).store.bytes.length ≤ columnMax
        rw [applyInsert_store]
        exact (congrArg List.length (hpushed store value rfl)).trans_le hm

theorem setPayload_bounded (id : Nat) (payload : List UInt8) (hm : m.Bounded) :
    (m.setPayload id payload).1.Bounded := by
  unfold setPayload
  split
  · exact hm
  · split
    · exact hm
    · split
      · exact hm
      · next hp =>
        show (applyEdit _ _ _).store.bytes.length ≤ columnMax
        rw [applyEdit_store]
        exact pushBytes_bounded hp

theorem insertPayload_bounded (anchor : InsertAt) (field : FieldNumber) (payload : List UInt8)
    (hm : m.Bounded) : (m.insertPayload anchor field payload).1.Bounded := by
  unfold insertPayload
  split
  · exact hm
  · split
    · exact hm
    · split
      · exact hm
      · split
        · exact hm
        · next hp =>
          show (applyInsert _ _ _ _ _).store.bytes.length ≤ columnMax
          rw [applyInsert_store]
          exact pushBytes_bounded hp

theorem install_bounded (door : Door) (payload : List UInt8) (hm : m.Bounded) :
    (m.install door payload).1.Bounded := by
  cases door with
  | set handle => exact setPayload_bounded handle payload hm
  | insert anchor field => exact insertPayload_bounded anchor field payload hm

theorem frame_bounded (door : Door) (declared : Option Nat) (chunks : List (List UInt8))
    (close : Bool) (hm : m.Bounded) : (m.frame door declared chunks close).1.Bounded := by
  have hone := frame_oneCommand door declared chunks hm
  cases close with
  | false =>
    rw [hone.dropped]
    exact hm
  | true =>
    cases hf : m.frame door declared chunks true with
    | mk m' r =>
      cases r with
      | error fault =>
        rw [hone.refused true m' fault hf]
        exact hm
      | ok framed =>
        obtain ⟨id, -, he⟩ := hone.finished m' framed hf
        have := install_bounded door (accepted chunks framed.writes) hm
        rwa [he] at this

theorem transit_bounded {id : Nat} {to? : Row → Option Edit} {fault : EditFault}
    (hm : m.Bounded) : (m.transit id to? fault).1.Bounded := by
  unfold transit
  split
  · exact hm
  · split
    · exact hm
    · split
      · exact hm
      · show (applyEdit _ _ _).store.bytes.length ≤ columnMax
        rw [applyEdit_store]
        exact hm

theorem descend_bounded (id : Nat) (hm : m.Bounded) : (m.descend id).1.Bounded := by
  unfold descend
  split
  · exact hm
  · split
    · exact hm
    · split
      · exact hm
      · exact hm
      · show (enter _ _ _).1.store.bytes.length ≤ columnMax
        rw [enter_store]
        exact hm

theorem copyRecord_bounded (src : Nat) (anchor : InsertAt) (hm : m.Bounded) :
    (m.copyRecord src anchor).1.Bounded := by
  unfold copyRecord
  split
  · exact hm
  · split
    · exact hm
    · show (applyInsert _ _ _ _ _).store.bytes.length ≤ columnMax
      rw [applyInsert_store]
      exact hm

theorem moveRecord_bounded (src : Nat) (anchor : InsertAt) (hm : m.Bounded) :
    (m.moveRecord src anchor).1.Bounded := by
  unfold moveRecord
  split
  · exact hm
  · show (applyMove _ _ _).store.bytes.length ≤ columnMax
    rw [applyMove_store, splice_store]
    exact hm

theorem movePayload_bounded (src : Nat) (anchor : InsertAt) (field : FieldNumber)
    (hm : m.Bounded) : (m.movePayload src anchor field).1.Bounded := by
  unfold movePayload
  split
  · exact hm
  · show (applyMove _ _ _).store.bytes.length ≤ columnMax
    rw [applyMove_store, splice_store]
    exact hm

theorem copyPayload_bounded (src : Nat) (target : PayloadTarget) (hm : m.Bounded) :
    (m.copyPayload src target).1.Bounded := by
  unfold copyPayload
  split
  · exact hm
  · split
    · exact hm
    · split
      · split
        · exact hm
        · show (applyEdit _ _ _).store.bytes.length ≤ columnMax
          rw [applyEdit_store]
          exact hm
      · split
        · exact hm
        · show (applyInsert _ _ _ _ _).store.bytes.length ≤ columnMax
          rw [applyInsert_store]
          exact hm

theorem copyRecordFrom_bounded (source : RecordRef standard) (anchor : InsertAt)
    (hm : m.Bounded) : (m.copyRecordFrom source anchor).1.Bounded := by
  unfold copyRecordFrom
  split
  · exact hm
  · split
    · exact hm
    · next hp =>
      show (applyInsert _ _ _ _ _).store.bytes.length ≤ columnMax
      rw [applyInsert_store]
      exact pushBytes_bounded hp

theorem scalar_bytes {s : Store} {lens : Nat} {f : Nat → Store} (hf : ∀ n, (f n).bytes = s.bytes)
    (word : Nat) (store : Store) (value : Nat)
    (h : (mint lens).map (fun value => (f word, value)) = some (store, value)) :
    store.bytes = s.bytes := by
  obtain ⟨v, -, he⟩ := Option.map_eq_some_iff.mp h
  cases he
  exact hf word

/-- Every command keeps the byte column's end in the offset domain. -/
theorem perform_bounded (command : Command standard) (hm : m.Bounded) :
    (m.perform command).1.Bounded := by
  have hvarint : ∀ word store value, m.store.pushVarint word = some (store, value) →
      store.bytes = m.store.bytes :=
    scalar_bytes (f := fun w => { m.store with varints := m.store.varints ++ [w] }) fun _ => rfl
  have hbits32 : ∀ word store value, m.store.pushBits32 word = some (store, value) →
      store.bytes = m.store.bytes :=
    scalar_bytes (f := fun w => { m.store with bits32 := m.store.bits32 ++ [w] }) fun _ => rfl
  have hbits64 : ∀ word store value, m.store.pushBits64 word = some (store, value) →
      store.bytes = m.store.bytes :=
    scalar_bytes (f := fun w => { m.store with bits64 := m.store.bits64 ++ [w] }) fun _ => rfl
  cases command with
  | descend id => exact descend_bounded id hm
  | setVarint id word => exact setScalar_bounded (hvarint _) hm
  | setI32 id bits => exact setScalar_bounded (hbits32 _) hm
  | setI64 id bits => exact setScalar_bounded (hbits64 _) hm
  | setPayload id payload => exact setPayload_bounded id payload hm
  | delete id => exact transit_bounded hm
  | undelete id => exact transit_bounded hm
  | clearEdit id => exact transit_bounded hm
  | insertVarint anchor field word => exact insertScalar_bounded (hvarint _) hm
  | insertI32 anchor field bits => exact insertScalar_bounded (hbits32 _) hm
  | insertI64 anchor field bits => exact insertScalar_bounded (hbits64 _) hm
  | insertPayload anchor field payload => exact insertPayload_bounded anchor field payload hm
  | frame door declared chunks close => exact frame_bounded door declared chunks close hm
  | copyRecord src anchor => exact copyRecord_bounded src anchor hm
  | moveRecord src anchor => exact moveRecord_bounded src anchor hm
  | copyPayload src target => exact copyPayload_bounded src target hm
  | movePayload src anchor field => exact movePayload_bounded src anchor field hm
  | copyRecordFrom source anchor => exact copyRecordFrom_bounded source anchor hm
  | revert =>
    show m.revert.1.store.bytes.length ≤ columnMax
    rw [revert_store]
    exact hm

theorem performAll_bounded (commands : List (Command standard)) (hm : m.Bounded) :
    (m.performAll commands).Bounded := by
  induction commands generalizing m with
  | nil => exact hm
  | cons command commands ih => exact ih (perform_bounded command hm)

theorem openSource_bounded {cap : Nat} {source : List UInt8}
    (h : openSource standard cap source = .ok m) : m.Bounded := by
  unfold openSource at h
  split at h
  · cases h
  · cases hscan : scanLayer standard [] source false 0 source.length none with
    | error halt => cases halt <;> rw [hscan] at h <;> cases h
    | ok x =>
      rw [hscan] at h
      cases h
      exact Nat.zero_le _

/-! ## The store under a command -/

variable (m) (s : Store)

theorem raiseMark_withStore (mark : Mark) (fuel id : Nat) :
    raiseMark mark fuel id (m.withStore s) = (raiseMark mark fuel id m).withStore s := by
  induction fuel generalizing id m with
  | zero => rfl
  | succ fuel ih =>
    have hstep : (m.withStore s).reflag mark true (· + 1) id =
        (m.reflag mark true (· + 1) id).withStore s := by
      unfold reflag
      rw [show (m.withStore s).row id = m.row id from rfl]
      cases (m.row id).parent <;> rfl
    unfold raiseMark
    rw [show (m.withStore s).row id = m.row id from rfl, hstep]
    split
    · rfl
    · cases (m.row id).parent with
      | none => rfl
      | some parent => exact ih _ parent

theorem lowerMark_withStore (mark : Mark) (fuel id : Nat) :
    lowerMark mark fuel id (m.withStore s) = (lowerMark mark fuel id m).withStore s := by
  induction fuel generalizing id m with
  | zero => rfl
  | succ fuel ih =>
    have hstep : (m.withStore s).reflag mark false (· - 1) id =
        (m.reflag mark false (· - 1) id).withStore s := by
      unfold reflag
      rw [show (m.withStore s).row id = m.row id from rfl]
      cases (m.row id).parent <;> rfl
    unfold lowerMark
    simp only [show (m.withStore s).row id = m.row id from rfl, hstep]
    split
    · rfl
    · cases (m.row id).parent with
      | none => rfl
      | some parent => exact ih _ parent

theorem logPush_withStore (id : Nat) (past : Edit) :
    (m.withStore s).logPush id past = (m.logPush id past).withStore s := by
  unfold logPush
  simp only [show (m.withStore s).row id = m.row id from rfl]
  split
  · exact raiseMark_withStore
      (setOwn { m with log := ⟨id, past, !(m.row id).body.ownHist⟩ :: m.log } id true) s _ _ _
  · rfl

theorem writeState_withStore (id : Nat) (edit : Edit) :
    (m.withStore s).writeState id edit = (m.writeState id edit).withStore s := by
  have hturned : (m.withStore s).turned id edit = (m.turned id edit).withStore s := by
    unfold turned
    simp only [show (m.withStore s).row id = m.row id from rfl]
    split <;> rfl
  unfold writeState
  simp only [hturned]
  split
  · exact raiseMark_withStore _ s _ _ _
  · exact lowerMark_withStore _ s _ _ _

theorem applyEdit_withStore (id : Nat) (edit : Edit) :
    (m.withStore s).applyEdit id edit = (m.applyEdit id edit).withStore s := by
  unfold applyEdit
  rw [show (m.withStore s).row id = m.row id from rfl, logPush_withStore, writeState_withStore]

theorem splice_withStore (plan : Plan) (id : Nat) (r : Row) :
    (m.withStore s).splice plan id r = (m.splice plan id r).withStore s := by
  obtain ⟨parent, prev⟩ := plan
  unfold splice
  simp only [show (m.withStore s).planNext ⟨parent, prev⟩ = m.planNext ⟨parent, prev⟩ from rfl]
  cases parent <;> cases prev <;> simp only <;> split <;> rfl

theorem applyInsert_withStore (plan : Plan) (id : Nat) (r : Row) (edit : Edit) :
    (m.withStore s).applyInsert plan id r edit = (m.applyInsert plan id r edit).withStore s := by
  unfold applyInsert
  rw [splice_withStore, logPush_withStore, writeState_withStore]

end Machine

/-! ## The mixed store -/

/-- One payload install: the backing its command chose. -/
inductive MixSlot where
  | borrowed (bytes : List UInt8)
  | copied (start len : Nat)
  deriving DecidableEq, Repr

/-- The machines over a mixed store. The core's store holds the mixed store's scalar columns and
its copied byte column, and `slots` stands for the span table. -/
structure MixMachine (standard : Standard) where
  core : Machine standard
  slots : List MixSlot

namespace MixMachine

variable {standard : Standard}

def pushSlot (m : MixMachine standard) (payload : List UInt8) :
    Option (MixMachine standard × Nat) :=
  (mint m.slots.length).map fun value =>
    ({ m with slots := m.slots ++ [.borrowed payload] }, value)

def pushBytes (m : MixMachine standard) (payload : List UInt8) :
    Option (MixMachine standard × Nat) :=
  let s := m.core.store
  match mint m.slots.length with
  | none => none
  | some value =>
    if columnMax < s.bytes.length + payload.length then none
    else
      some
        (⟨m.core.withStore { s with bytes := s.bytes ++ payload },
          m.slots ++ [.copied s.bytes.length payload.length]⟩, value)

def stageFinish (m : MixMachine standard) (mark : Nat) : Option (MixMachine standard × Nat) :=
  (mint m.slots.length).map fun value =>
    ({ m with slots := m.slots ++ [.copied mark (m.core.store.stageMark - mark)] }, value)

def slotBytes (m : MixMachine standard) : MixSlot → List UInt8
  | .borrowed bytes => bytes
  | .copied start len => (m.core.store.bytes.drop start).take len

/-- The machine with its rows, its links and its log turned. -/
def turn (m : MixMachine standard) (f : Machine standard → Machine standard) :
    MixMachine standard :=
  { m with core := f m.core }

/-- `set_payload` and `set_payload_copy`, by the store's push. -/
def setPushed (m : MixMachine standard) (handle : Nat) (payload : List UInt8)
    (pushed : Option (MixMachine standard × Nat)) : MixMachine standard × Except EditFault Unit :=
  match m.core.payloadGate handle with
  | .error fault => (m, .error fault)
  | .ok witness =>
    if PayloadLen.max < payload.length then (m, .error (.payloadTooLarge payload.length))
    else
      match pushed with
      | none => (m, .error .indexSpaceExhausted)
      | some (m', value) => (m'.turn fun core => core.applyEdit handle (witness.set value), .ok ())

def setPayload (m : MixMachine standard) (handle : Nat) (payload : List UInt8) :
    MixMachine standard × Except EditFault Unit :=
  m.setPushed handle payload (m.pushSlot payload)

def setPayloadCopy (m : MixMachine standard) (handle : Nat) (payload : List UInt8) :
    MixMachine standard × Except EditFault Unit :=
  m.setPushed handle payload (m.pushBytes payload)

/-- `insert_payload` and `insert_payload_copy`, by the store's push. -/
def insertPushed (m : MixMachine standard) (anchor : InsertAt) (field : FieldNumber)
    (payload : List UInt8) (pushed : Option (MixMachine standard × Nat)) :
    MixMachine standard × Except EditFault Nat :=
  match m.core.resolveAnchor anchor with
  | .error fault => (m, .error fault)
  | .ok plan =>
    match mintRow m.core.rows with
    | none => (m, .error .indexSpaceExhausted)
    | some id =>
      if PayloadLen.max < payload.length then (m, .error (.payloadTooLarge payload.length))
      else
        match pushed with
        | none => (m, .error .indexSpaceExhausted)
        | some (m', value) =>
          (m'.turn fun core => core.insertStored plan id field .len value, .ok id)

def insertPayload (m : MixMachine standard) (anchor : InsertAt) (field : FieldNumber)
    (payload : List UInt8) : MixMachine standard × Except EditFault Nat :=
  m.insertPushed anchor field payload (m.pushSlot payload)

def insertPayloadCopy (m : MixMachine standard) (anchor : InsertAt) (field : FieldNumber)
    (payload : List UInt8) : MixMachine standard × Except EditFault Nat :=
  m.insertPushed anchor field payload (m.pushBytes payload)

/-- An import retains its record's bytes. -/
def copyRecordFrom (m : MixMachine standard) (source : RecordRef standard) (anchor : InsertAt) :
    MixMachine standard × Except EditFault Nat :=
  match m.core.landing anchor with
  | .error fault => (m, .error fault)
  | .ok (plan, id) =>
    match m.pushSlot source.record.bytes with
    | none => (m, .error .indexSpaceExhausted)
    | some (m', value) =>
      (m'.turn fun core =>
        core.applyInsert plan id
          (.authored source.record.field source.record.payload.kind (.importedDeleted value))
          (.imported value), .ok id)

/-- `MixPayloadFrame`'s publishing close. -/
def publish (m : MixMachine standard) (op : FrameOp) (mark : Nat) :
    MixMachine standard × Except EditFault Nat :=
  match op with
  | .set handle witness =>
    match m.stageFinish mark with
    | none => (m, .error .indexSpaceExhausted)
    | some (m', value) =>
      (m'.turn fun core => core.applyEdit handle (witness.set value), .ok handle)
  | .insert plan field =>
    match mintRow m.core.rows with
    | none => (m, .error .indexSpaceExhausted)
    | some id =>
      match m.stageFinish mark with
      | none => (m, .error .indexSpaceExhausted)
      | some (m', value) =>
        (m'.turn fun core => core.insertStored plan id field .len value, .ok id)

def abandon (m : MixMachine standard) (mark : Nat) : MixMachine standard :=
  m.turn fun core => core.abandon mark

def finish (m : MixMachine standard) (op : FrameOp) (mark : Nat) (declared : Option Nat) :
    MixMachine standard × Except EditFault Nat :=
  let staged := m.core.store.stageMark - mark
  if declared.any (· != staged) then
    (m.abandon mark, .error (.underDeclared (declared.getD 0) staged))
  else
    match m.publish op mark with
    | (m', .ok id) => (m', .ok id)
    | (m', .error fault) => (m'.abandon mark, .error fault)

/-- A frame's life; its door and its writes are the copying machine's. -/
def frame (m : MixMachine standard) (door : Door) (declared : Option Nat)
    (chunks : List (List UInt8)) (finished : Bool) :
    MixMachine standard × Except EditFault Framed :=
  match m.core.beginFrame door declared with
  | .error fault => (m, .error fault)
  | .ok op =>
    let mark := m.core.store.stageMark
    let written := writes mark declared m.core.store chunks
    let staged := m.turn fun core => core.withStore written.1
    if finished then
      match staged.finish op mark declared with
      | (m', .ok id) => (m', .ok ⟨written.2, some id⟩)
      | (m', .error fault) => (m', .error fault)
    else (staged.abandon mark, .ok ⟨written.2, none⟩)

/-- The borrowing command at a frame's door. -/
def install (m : MixMachine standard) (door : Door) (payload : List UInt8) :
    MixMachine standard × Except EditFault Nat :=
  match door with
  | .set handle =>
    ((m.setPayload handle payload).1, (m.setPayload handle payload).2.map fun _ => handle)
  | .insert anchor field => m.insertPayload anchor field payload

/-- The copying command at a frame's door. -/
def installCopy (m : MixMachine standard) (door : Door) (payload : List UInt8) :
    MixMachine standard × Except EditFault Nat :=
  match door with
  | .set handle =>
    ((m.setPayloadCopy handle payload).1, (m.setPayloadCopy handle payload).2.map fun _ => handle)
  | .insert anchor field => m.insertPayloadCopy anchor field payload

/-- What every later read and save consults: the machine less where its payloads lie, and every
slot's bytes. -/
def face (m : MixMachine standard) : Machine standard × List (List UInt8) :=
  (m.core.withStore { m.core.store with bytes := [] }, m.slots.map m.slotBytes)

/-- The states of a run. A command that installs no payload leaves both payload columns. -/
inductive Reached : MixMachine standard → Prop where
  | opened {core : Machine standard} : core.store = .new → Reached ⟨core, []⟩
  | turned {m : MixMachine standard} {core : Machine standard} : Reached m →
      core.store.bytes = m.core.store.bytes → Reached { m with core }
  | setPayload {m : MixMachine standard} (handle : Nat) (payload : List UInt8) : Reached m →
      Reached (m.setPayload handle payload).1
  | setPayloadCopy {m : MixMachine standard} (handle : Nat) (payload : List UInt8) : Reached m →
      Reached (m.setPayloadCopy handle payload).1
  | insertPayload {m : MixMachine standard} (anchor : InsertAt) (field : FieldNumber)
      (payload : List UInt8) : Reached m → Reached (m.insertPayload anchor field payload).1
  | insertPayloadCopy {m : MixMachine standard} (anchor : InsertAt) (field : FieldNumber)
      (payload : List UInt8) : Reached m → Reached (m.insertPayloadCopy anchor field payload).1
  | copyRecordFrom {m : MixMachine standard} (source : RecordRef standard) (anchor : InsertAt) :
      Reached m → Reached (m.copyRecordFrom source anchor).1
  | frame {m : MixMachine standard} (door : Door) (declared : Option Nat)
      (chunks : List (List UInt8)) (close : Bool) : Reached m →
      Reached (m.frame door declared chunks close).1

/-- Every copied extent lies in the byte column, whose end is in the offset domain. -/
structure Sealed (m : MixMachine standard) : Prop where
  bounded : m.core.Bounded
  within : ∀ start len, .copied start len ∈ m.slots → start + len ≤ m.core.store.bytes.length

section Frame

variable {m : MixMachine standard} {declared : Option Nat} {store : Store} {payload : List UInt8}

/-- What a frame's finish mints on the staged machine is what the copying push mints. -/
theorem took_finish (ht : Took m.core.store declared store payload) :
    (m.turn fun core => core.withStore store).stageFinish m.core.store.stageMark =
      m.pushBytes payload := by
  obtain ⟨⟨rfl, -⟩, hfits⟩ := ht
  unfold stageFinish pushBytes
  simp only [turn]
  cases mint m.slots.length with
  | none => rfl
  | some value =>
    simp only [Option.map_some, if_neg (Nat.not_lt.mpr hfits)]
    simp only [Store.stageMark, Machine.withStore, List.length_append, Nat.add_sub_cancel_left]

theorem publish_took {door : Door} {op : FrameOp} {m' : MixMachine standard} {id : Nat}
    (hop : m.core.admitDoor door = .ok op) (hd : declared.getD PayloadLen.max ≤ PayloadLen.max)
    (ht : Took m.core.store declared store payload)
    (h : (m.turn fun core => core.withStore store).publish op m.core.store.stageMark =
      (m', .ok id)) : m.installCopy door payload = (m', .ok id) := by
  have hlen : ¬ PayloadLen.max < payload.length := Nat.not_lt.mpr (ht.staged.2.trans hd)
  cases door with
  | set handle =>
    obtain ⟨witness, hgate, rfl⟩ := Machine.map_ok hop
    simp only [publish, took_finish ht] at h
    simp only [installCopy, setPayloadCopy, setPushed, hgate, if_neg hlen]
    cases hp : m.pushBytes payload with
    | none => rw [hp] at h; cases h
    | some p =>
      rw [hp] at h
      cases h
      rfl
  | insert anchor field =>
    obtain ⟨plan, hplan, rfl⟩ := Machine.map_ok hop
    have hmint : mintRow (m.turn fun core => core.withStore store).core.rows =
        mintRow m.core.rows := rfl
    simp only [publish, took_finish ht, hmint] at h
    simp only [installCopy, insertPayloadCopy, insertPushed, hplan]
    cases hid : mintRow m.core.rows with
    | none => rw [hid] at h; cases h
    | some row =>
      rw [hid] at h
      simp only [if_neg hlen]
      cases hp : m.pushBytes payload with
      | none => rw [hp] at h; cases h
      | some p =>
        rw [hp] at h
        cases h
        rfl

theorem publish_refused {op : FrameOp} {mark : Nat} {m' : MixMachine standard} {fault : EditFault}
    (h : m.publish op mark = (m', .error fault)) : m' = m := by
  unfold publish at h
  cases op with
  | set handle witness =>
    simp only at h
    split at h
    · exact (congrArg Prod.fst h).symm
    · cases h
  | insert plan field =>
    simp only at h
    split at h
    · exact (congrArg Prod.fst h).symm
    · split at h
      · exact (congrArg Prod.fst h).symm
      · cases h

theorem staged_abandon (ht : Took m.core.store declared store payload) :
    (m.turn fun core => core.withStore store).abandon m.core.store.stageMark = m := by
  show (⟨(m.core.withStore store).abandon m.core.store.stageMark, m.slots⟩ : MixMachine _) = m
  rw [Machine.dropped ht.staged]

theorem finish_took {door : Door} {op : FrameOp} {m' : MixMachine standard}
    {r : Except EditFault Nat} (hop : m.core.admitDoor door = .ok op)
    (hd : declared.getD PayloadLen.max ≤ PayloadLen.max)
    (ht : Took m.core.store declared store payload)
    (h : (m.turn fun core => core.withStore store).finish op m.core.store.stageMark declared =
      (m', r)) : (∃ id, r = .ok id ∧ m.installCopy door payload = (m', .ok id)) ∨
      ((∃ fault, r = .error fault) ∧ m' = m) := by
  unfold finish at h
  extract_lets staged at h
  split_ifs at h with hu
  · rw [staged_abandon ht] at h
    cases h
    exact .inr ⟨⟨_, rfl⟩, rfl⟩
  · cases hp : (m.turn fun core => core.withStore store).publish op m.core.store.stageMark with
    | mk m'' r' =>
      rw [hp] at h
      cases r' with
      | error fault =>
        rw [publish_refused hp] at h
        simp only [staged_abandon ht] at h
        cases h
        exact .inr ⟨⟨_, rfl⟩, rfl⟩
      | ok id =>
        cases h
        exact .inl ⟨id, rfl, publish_took hop hd ht hp⟩

/-- A frame of the mixed machine, against its copying commands. -/
theorem frame_oneCommand (door : Door) (declared : Option Nat) (chunks : List (List UInt8))
    (hm : m.core.Bounded) :
    OneCommand m (m.frame door declared chunks) (m.installCopy door) chunks := by
  cases hb : m.core.beginFrame door declared with
  | error fault =>
    have hframe : ∀ close, m.frame door declared chunks close = (m, .error fault) := fun close => by
      unfold frame
      rw [hb]
    refine ⟨fun m' framed h => ?_, fun close m' fault' h => ?_, ?_⟩
    · rw [hframe] at h
      cases h
    · rw [hframe] at h
      exact (congrArg Prod.fst h).symm
    · rw [hframe]
  | ok op =>
    obtain ⟨hop, hd, hr⟩ := Machine.beginFrame_reserved hb
    have ht := (took_nil declared hm).writes hr chunks
    have hdropped : (m.frame door declared chunks false).1 = m := by
      unfold frame
      rw [hb]
      exact staged_abandon ht
    have hclosed : ∀ m' r, m.frame door declared chunks true = (m', r) →
        (∃ id, r = .ok ⟨(writes m.core.store.stageMark declared m.core.store chunks).2, some id⟩ ∧
          m.installCopy door
            (accepted chunks (writes m.core.store.stageMark declared m.core.store chunks).2) =
              (m', .ok id)) ∨ ((∃ fault, r = .error fault) ∧ m' = m) := by
      intro m' r h
      unfold frame at h
      rw [hb] at h
      simp only [if_true] at h
      cases hf : (m.turn fun core => core.withStore
          (writes m.core.store.stageMark declared m.core.store chunks).1).finish op
          m.core.store.stageMark declared with
      | mk m'' r' =>
        rw [hf] at h
        rcases finish_took hop hd ht hf with ⟨id, rfl, hi⟩ | ⟨⟨fault, rfl⟩, rfl⟩
        · cases h
          exact .inl ⟨id, rfl, hi⟩
        · cases h
          exact .inr ⟨⟨_, rfl⟩, rfl⟩
    refine ⟨fun m' framed h => ?_, fun close m' fault h => ?_, hdropped⟩
    · rcases hclosed m' _ h with ⟨id, he, hi⟩ | ⟨⟨fault, he⟩, -⟩
      · cases he
        exact ⟨id, rfl, hi⟩
      · cases he
    · cases close with
      | false =>
        rw [h] at hdropped
        exact hdropped
      | true =>
        rcases hclosed m' _ h with ⟨id, he, -⟩ | ⟨-, he⟩
        · cases he
        · exact he

end Frame

/-! ## The invariant of a run -/

section Run

variable {m m' : MixMachine standard} {payload : List UInt8} {value : Nat}

theorem Sealed.turn (h : m.Sealed) {f : Machine standard → Machine standard}
    (hf : (f m.core).store = m.core.store) : (m.turn f).Sealed where
  bounded := by
    show (f m.core).store.bytes.length ≤ columnMax
    rw [hf]
    exact h.bounded
  within start len hs := by
    show start + len ≤ (f m.core).store.bytes.length
    rw [hf]
    exact h.within start len hs

theorem Sealed.pushSlot (h : m.Sealed) (hp : m.pushSlot payload = some (m', value)) :
    m'.Sealed := by
  obtain ⟨v, -, he⟩ := Option.map_eq_some_iff.mp hp
  cases he
  refine ⟨h.bounded, fun start len hs => ?_⟩
  rcases List.mem_append.mp hs with hs | hs
  · exact h.within start len hs
  · cases List.mem_singleton.mp hs

theorem Sealed.pushBytes (h : m.Sealed) (hp : m.pushBytes payload = some (m', value)) :
    m'.Sealed := by
  unfold MixMachine.pushBytes at hp
  extract_lets s at hp
  split at hp
  · cases hp
  · split_ifs at hp with hcol
    cases hp
    refine ⟨?_, fun start len hs => ?_⟩
    · show (s.bytes ++ payload).length ≤ columnMax
      rw [List.length_append]
      exact Nat.not_lt.mp hcol
    · show start + len ≤ (s.bytes ++ payload).length
      rw [List.length_append]
      rcases List.mem_append.mp hs with hs | hs
      · exact (h.within start len hs).trans (Nat.le_add_right _ _)
      · cases List.mem_singleton.mp hs
        exact Nat.le_refl _

theorem Sealed.setPushed {pushed : Option (MixMachine standard × Nat)} (h : m.Sealed)
    (hpushed : ∀ m' value, pushed = some (m', value) → m'.Sealed) (handle : Nat) :
    (m.setPushed handle payload pushed).1.Sealed := by
  unfold MixMachine.setPushed
  split
  · exact h
  · split
    · exact h
    · split
      · exact h
      · dsimp only
        apply (hpushed _ _ rfl).turn
        apply Machine.applyEdit_store

theorem Sealed.insertPushed {pushed : Option (MixMachine standard × Nat)} (h : m.Sealed)
    (hpushed : ∀ m' value, pushed = some (m', value) → m'.Sealed) (anchor : InsertAt)
    (field : FieldNumber) : (m.insertPushed anchor field payload pushed).1.Sealed := by
  unfold MixMachine.insertPushed
  split
  · exact h
  · split
    · exact h
    · split
      · exact h
      · split
        · exact h
        · dsimp only
          apply (hpushed _ _ rfl).turn
          apply Machine.applyInsert_store

theorem Sealed.copyRecordFrom (h : m.Sealed) (source : RecordRef standard) (anchor : InsertAt) :
    (m.copyRecordFrom source anchor).1.Sealed := by
  unfold MixMachine.copyRecordFrom
  split
  · exact h
  · split
    · exact h
    · next hp =>
      dsimp only
      apply (h.pushSlot hp).turn
      apply Machine.applyInsert_store

theorem Sealed.installCopy (h : m.Sealed) (door : Door) (payload : List UInt8) :
    (m.installCopy door payload).1.Sealed := by
  cases door with
  | set handle => exact h.setPushed (fun _ _ => h.pushBytes) handle
  | insert anchor field => exact h.insertPushed (fun _ _ => h.pushBytes) anchor field

theorem Sealed.frame (h : m.Sealed) (door : Door) (declared : Option Nat)
    (chunks : List (List UInt8)) (close : Bool) :
    (m.frame door declared chunks close).1.Sealed := by
  have hone := frame_oneCommand door declared chunks h.bounded
  cases hf : m.frame door declared chunks close with
  | mk m' r =>
    cases r with
    | error fault =>
      rw [hone.refused close m' fault hf]
      exact h
    | ok framed =>
      cases close with
      | false =>
        have hd := hone.dropped
        rw [hf] at hd
        exact hd ▸ h
      | true =>
        obtain ⟨id, -, he⟩ := hone.finished m' framed hf
        have := h.installCopy door (accepted chunks framed.writes)
        rwa [he] at this

theorem Reached.sealed (h : m.Reached) : m.Sealed := by
  induction h with
  | opened hs =>
    refine ⟨?_, nofun⟩
    show List.length _ ≤ _
    rw [hs]
    exact Nat.zero_le _
  | @turned m core _ hs ih =>
    refine ⟨?_, fun start len hmem => ?_⟩
    · show core.store.bytes.length ≤ columnMax
      rw [hs]
      exact ih.bounded
    · show start + len ≤ core.store.bytes.length
      rw [hs]
      exact ih.within start len hmem
  | setPayload handle payload _ ih => exact ih.setPushed (fun _ _ => ih.pushSlot) handle
  | setPayloadCopy handle payload _ ih => exact ih.setPushed (fun _ _ => ih.pushBytes) handle
  | insertPayload anchor field payload _ ih =>
    exact ih.insertPushed (fun _ _ => ih.pushSlot) anchor field
  | insertPayloadCopy anchor field payload _ ih =>
    exact ih.insertPushed (fun _ _ => ih.pushBytes) anchor field
  | copyRecordFrom source anchor _ ih => exact ih.copyRecordFrom source anchor
  | frame door declared chunks close _ ih => exact ih.frame door declared chunks close

/-- The two pushes mint one coordinate, and their slots read alike. -/
theorem Sealed.pushed_face {f : Machine standard → Machine standard} (h : m.Sealed)
    (hf : ∀ core s, f (core.withStore s) = (f core).withStore s)
    (hp : m.pushBytes payload = some (m', value)) :
    ∃ m'', m.pushSlot payload = some (m'', value) ∧ (m''.turn f).face = (m'.turn f).face := by
  unfold MixMachine.pushBytes at hp
  extract_lets s at hp
  unfold MixMachine.pushSlot
  cases hm : mint m.slots.length with
  | none => rw [hm] at hp; cases hp
  | some v =>
    rw [hm] at hp
    simp only at hp
    split_ifs at hp
    cases hp
    have hstore : (f m.core).store = s := by
      have he := congrArg Machine.store (hf m.core s)
      exact he
    have hold : ∀ slot ∈ m.slots,
        (MixMachine.turn m f).slotBytes slot =
          (⟨(f m.core).withStore { s with bytes := s.bytes ++ payload }, m.slots⟩ :
            MixMachine standard).slotBytes slot := by
      intro slot hslot
      cases slot with
      | borrowed bytes => rfl
      | copied start len =>
        have hin : start + len ≤ s.bytes.length := h.within start len hslot
        show ((f m.core).store.bytes.drop start).take len =
          ((s.bytes ++ payload).drop start).take len
        rw [hstore, List.drop_append_of_le_length (by omega), List.take_append_of_le_length
          (by rw [List.length_drop]; omega)]
    refine ⟨_, rfl, ?_⟩
    unfold face MixMachine.turn
    simp only [hf, List.map_append, List.map_singleton]
    refine Prod.ext ?_ ?_
    · show (f m.core).withStore { (f m.core).store with bytes := [] } =
        (f m.core).withStore { s with bytes := [] }
      rw [hstore]
    · refine congrArg₂ (· ++ ·) (List.map_congr_left hold) ?_
      show [payload] = [((s.bytes ++ payload).drop s.bytes.length).take payload.length]
      rw [List.drop_left, List.take_length]

/-- The borrowing command does what the copying one does. -/
theorem Sealed.install_face {door : Door} {id : Nat} (h : m.Sealed)
    (hi : m.installCopy door payload = (m', .ok id)) :
    ∃ m'', m.install door payload = (m'', .ok id) ∧ m''.face = m'.face := by
  cases door with
  | set handle =>
    simp only [MixMachine.installCopy, setPayloadCopy, MixMachine.setPushed] at hi
    simp only [MixMachine.install, MixMachine.setPayload, MixMachine.setPushed]
    cases hg : m.core.payloadGate handle with
    | error fault => rw [hg] at hi; cases hi
    | ok witness =>
      rw [hg] at hi
      simp only at hi ⊢
      split_ifs at hi ⊢
      · cases hi
      · cases hp : m.pushBytes payload with
        | none => rw [hp] at hi; cases hi
        | some p =>
          obtain ⟨m₁, value⟩ := p
          rw [hp] at hi
          cases hi
          obtain ⟨m₂, hs, hface⟩ := h.pushed_face (f := fun core =>
            core.applyEdit handle (witness.set value))
            (fun core s => core.applyEdit_withStore s _ _) hp
          rw [hs]
          exact ⟨_, rfl, hface⟩
  | insert anchor field =>
    simp only [MixMachine.installCopy, insertPayloadCopy, MixMachine.insertPushed] at hi
    simp only [MixMachine.install, MixMachine.insertPayload, MixMachine.insertPushed]
    cases ha : m.core.resolveAnchor anchor with
    | error fault => rw [ha] at hi; cases hi
    | ok plan =>
      cases hid : mintRow m.core.rows with
      | none => rw [ha, hid] at hi; cases hi
      | some row =>
        rw [ha, hid] at hi
        simp only at hi ⊢
        split_ifs at hi ⊢
        · cases hi
        · cases hp : m.pushBytes payload with
          | none => rw [hp] at hi; cases hi
          | some p =>
            obtain ⟨m₁, value⟩ := p
            rw [hp] at hi
            cases hi
            obtain ⟨m₂, hs, hface⟩ := h.pushed_face (f := fun core =>
              core.insertStored plan id field .len value)
              (fun core s => core.applyInsert_withStore s _ _ _ _) hp
            rw [hs]
            exact ⟨_, rfl, hface⟩

end Run

end MixMachine

/-- A frame is one command or nothing, in every state of a run, over either store. What it leaves
over the mixed store is the copying command's state, and reads as the borrowing command's does. -/
theorem frames_oneCommand {standard : Standard} {cap : Nat} {source : List UInt8}
    {m : Machine standard} (h : openSource standard cap source = .ok m)
    (commands : List (Command standard)) {x : MixMachine standard} (hx : x.Reached) (door : Door)
    (declared : Option Nat) (chunks : List (List UInt8)) :
    OneCommand (m.performAll commands) ((m.performAll commands).frame door declared chunks)
        ((m.performAll commands).install door) chunks ∧
      OneCommand x (x.frame door declared chunks) (x.installCopy door) chunks ∧
      ∀ payload x' id, x.installCopy door payload = (x', .ok id) →
        ∃ x'', x.install door payload = (x'', .ok id) ∧ x''.face = x'.face :=
  ⟨Machine.frame_oneCommand door declared chunks
      (Machine.performAll_bounded commands (Machine.openSource_bounded h)),
    MixMachine.frame_oneCommand door declared chunks hx.sealed.bounded,
    fun _ _ _ => hx.sealed.install_face⟩

theorem frames_oneCommand_opened :
    ∃ m : Machine .tolerant, openSource .tolerant PayloadLen.max [0x0A, 0x00] = .ok m ∧
      OneCommand m (m.frame (.set 0) (some 2) [[0x08], [0x08, 0x01], [0x01]])
        (m.install (.set 0)) [[0x08], [0x08, 0x01], [0x01]] := by
  obtain ⟨m, hm⟩ : ∃ m : Machine .tolerant,
      openSource .tolerant PayloadLen.max [0x0A, 0x00] = .ok m := ⟨_, rfl⟩
  have hstore : m.store = .new := by
    cases hm
    rfl
  exact ⟨m, hm, (frames_oneCommand hm [] (.opened hstore) (.set 0) (some 2) _).1⟩

end ProtobufEdit.Revise
