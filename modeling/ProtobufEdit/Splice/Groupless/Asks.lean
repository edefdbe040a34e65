import ProtobufEdit.Splice.Groupless

/-!
# The asks of a job

A rule that keeps a log of its asks answers as the rule it logs, so a job under either ends
alike (`spliceInto_logged`): the log is what the job asked.
-/

namespace ProtobufEdit.Splice.Groupless

open Wire ProtobufEdit.Path Cursor Cursor.Groupless Loop TwoPass

/-- One ask: a record's whole-input offset, its field and its value. -/
structure Ask where
  head : Nat
  field : FieldNumber
  value : Value
  deriving DecidableEq, Repr

section Logs

variable {σ τ β ν : Type}

/-- The rule with a log of its asks. -/
def Rule.logged (rule : Rule σ) : Rule (σ × List Ask) where
  onVarint s head field value :=
    let (answer, s') := rule.onVarint s.1 head field value
    (answer, s', s.2 ++ [⟨head, field, .varint value⟩])
  onI32 s head field bits :=
    let (answer, s') := rule.onI32 s.1 head field bits
    (answer, s', s.2 ++ [⟨head, field, .i32 bits⟩])
  onI64 s head field bits :=
    let (answer, s') := rule.onI64 s.1 head field bits
    (answer, s', s.2 ++ [⟨head, field, .i64 bits⟩])
  onLen s head field payload :=
    let (answer, s') := rule.onLen s.1 head field payload
    (answer, s', s.2 ++ [⟨head, field, .len payload⟩])

/-- One rule's states seen as another's, which answers alike. -/
structure Rule.Projects (f : σ → τ) (rule : Rule σ) (rule' : Rule τ) : Prop where
  onVarint : ∀ s head field value, rule'.onVarint (f s) head field value =
    ((rule.onVarint s head field value).1, f (rule.onVarint s head field value).2)
  onI32 : ∀ s head field bits, rule'.onI32 (f s) head field bits =
    ((rule.onI32 s head field bits).1, f (rule.onI32 s head field bits).2)
  onI64 : ∀ s head field bits, rule'.onI64 (f s) head field bits =
    ((rule.onI64 s head field bits).1, f (rule.onI64 s head field bits).2)
  onLen : ∀ s head field payload, rule'.onLen (f s) head field payload =
    ((rule.onLen s head field payload).1, f (rule.onLen s head field payload).2)

theorem Rule.projects_logged (rule : Rule σ) : rule.logged.Projects Prod.fst rule :=
  ⟨fun _ _ _ _ => rfl, fun _ _ _ _ => rfl, fun _ _ _ _ => rfl, fun _ _ _ _ => rfl⟩

/-! ## A walk seen through a projection of its rule's states -/

def Walk.map (f : σ → τ) (w : Walk σ β) : Walk τ β := ⟨w.layer, w.below, f w.rule, w.back⟩

theorem map_layer (f : σ → τ) (w : Walk σ β) : (w.map f).layer = w.layer := rfl

def mapEnded (f : σ → τ) : Ended × σ × β → Ended × τ × β
  | (ended, s, back) => (ended, f s, back)

def mapTurned (f : σ → τ) : Turned σ β → Turned τ β
  | .next w => .next (w.map f)
  | .halt r => .halt (mapEnded f r)

variable (f : σ → τ) (B : Back β) (w : Walk σ β)

theorem lapse_map (pos : Nat) (trap : Trap) :
    (w.map f).lapse pos trap = mapTurned f (w.lapse pos trap) := by
  cases trap <;> rfl

theorem flow_map (head : Nat) (d : Did β) :
    (w.map f).flow head d = mapTurned f (w.flow head d) := by
  rcases d with ⟨trap | ⟨⟨⟩⟩, back⟩
  · exact lapse_map f { w with back } head trap
  · rfl

theorem judgeAnswer_map (bytes : List UInt8) (head : Nat) {t : Turned σ β} {t' : Turned τ β}
    (h : t' = mapTurned f t) :
    (w.map f).judgeAnswer bytes head t' = mapTurned f (w.judgeAnswer bytes head t) := by
  unfold Walk.judgeAnswer
  split
  · rfl
  · exact h

theorem scalar_map (author : ν → β → Did β) (head tagEnd stop : Nat) (answer : Scalar ν) :
    (w.map f).scalar B author head tagEnd stop answer
      = mapTurned f (w.scalar B author head tagEnd stop answer) := by
  cases answer with
  | keep => exact flow_map f w head _
  | rewrite value => exact flow_map f w head _
  | drop => rfl
  | insert bytes => exact judgeAnswer_map f w bytes head (flow_map f w head _)

theorem enter_map (head tagEnd stop : Nat) (field : FieldNumber) (payload : List UInt8)
    (tail : Option (List UInt8)) (remaining : Nat) :
    (w.map f).enter B head tagEnd stop field payload tail remaining
      = mapTurned f (w.enter B head tagEnd stop field payload tail remaining) := by
  simp only [Walk.enter, Walk.map]
  rcases B.commit head tagEnd (stop - payload.length) tail w.back with ⟨trap | ⟨⟨⟩⟩, back⟩
  · exact lapse_map f { w with back } head trap
  · cases within payload <;> rfl

theorem len_map (head tagEnd stop : Nat) (field : FieldNumber) (payload : List UInt8)
    (answer : Len) :
    (w.map f).len B head tagEnd stop field payload answer
      = mapTurned f (w.len B head tagEnd stop field payload answer) := by
  cases answer with
  | pass => exact flow_map f w head _
  | commit tail =>
    simp only [Walk.len, map_layer]
    cases w.layer.remaining with
    | zero => rfl
    | succ remaining =>
      cases tail with
      | none => exact enter_map f B w head tagEnd stop field payload none remaining
      | some bytes =>
        exact judgeAnswer_map f w bytes head
          (enter_map f B w head tagEnd stop field payload (some bytes) remaining)
  | replace bytes => exact judgeAnswer_map f w bytes head (flow_map f w head _)
  | drop => rfl
  | insert bytes => exact judgeAnswer_map f w bytes head (flow_map f w head _)

theorem exhaust_map : (w.map f).exhaust B = mapTurned f (w.exhaust B) := by
  rcases w with ⟨layer, below, s, back⟩
  cases below with
  | nil => rfl
  | cons outer below =>
    simp only [Walk.exhaust, Walk.map]
    rcases B.close layer.cursor.pos back with ⟨trap | ⟨⟨⟩⟩, back⟩
    · exact lapse_map f ⟨outer, below, s, back⟩ _ trap
    · rfl

variable {f} {rule : Rule σ} {rule' : Rule τ}

theorem deliver_map (h : rule.Projects f rule') (head : Nat) (entry : Entry) :
    (w.map f).deliver rule' B head entry = mapTurned f (w.deliver rule B head entry) := by
  have hrule : (w.map f).rule = f w.rule := rfl
  unfold Walk.deliver
  cases entry.value with
  | varint value =>
    simp only [hrule, h.onVarint]
    exact scalar_map f B { w with rule := _ } _ head _ _ _
  | i32 bits =>
    simp only [hrule, h.onI32]
    exact scalar_map f B { w with rule := _ } _ head _ _ _
  | i64 bits =>
    simp only [hrule, h.onI64]
    exact scalar_map f B { w with rule := _ } _ head _ _ _
  | len payload =>
    simp only [hrule, h.onLen]
    exact len_map f B { w with rule := _ } head _ _ _ _ _

theorem turn_map (h : rule.Projects f rule') (standard : Standard) :
    (w.map f).turn rule' standard B = mapTurned f (w.turn rule standard B) := by
  simp only [Walk.turn, map_layer]
  rcases step standard w.layer.cursor with ⟨_ | fault | entry, cursor⟩
  · exact exhaust_map f B { w with layer := { w.layer with cursor } }
  · rfl
  · exact deliver_map B { w with layer := { w.layer with cursor } } h _ entry

theorem run_map (h : rule.Projects f rule') (standard : Standard) (fuel : Nat) :
    run (Walk.turn rule' standard B) fuel (w.map f)
      = (run (Walk.turn rule standard B) fuel w).map (mapEnded f) := by
  induction fuel generalizing w with
  | zero => rfl
  | succ fuel ih =>
    simp only [run, turn_map B w h]
    cases w.turn rule standard B with
    | next w' => exact ih w'
    | halt r => rfl

/-- A job under the logging rule is the job under the rule, with its log. -/
theorem spliceInto_logged (input : List UInt8) (rule : Rule σ) (standard : Standard)
    (limit : DepthLimit) (s : σ) (out : List UInt8) :
    spliceInto input rule standard limit s out
      = (spliceInto input rule.logged standard limit (s, []) out).map (mapEnded Prod.fst) := by
  unfold spliceInto walk
  cases Cursor.over input with
  | none => rfl
  | some root =>
    have hrun := run_map Emit.back (⟨⟨root, 0, none, limit.asInner⟩, [], (s, []), .new input out⟩ :
      Walk (σ × List Ask) Emit) rule.projects_logged standard (input.length + 1)
    have hstart : (⟨⟨root, 0, none, limit.asInner⟩, [], (s, []), .new input out⟩ :
      Walk (σ × List Ask) Emit).map Prod.fst
        = ⟨⟨root, 0, none, limit.asInner⟩, [], s, .new input out⟩ := rfl
    rw [hstart] at hrun
    simp only [hrun]
    rcases run (Walk.turn rule.logged standard Emit.back) (input.length + 1) _
      with _ | ⟨_ | _ | _ | _, s', back⟩ <;> rfl

end Logs

end ProtobufEdit.Splice.Groupless
