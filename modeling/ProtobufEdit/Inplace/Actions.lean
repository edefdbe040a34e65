import ProtobufEdit.Inplace.Fill
import ProtobufEdit.Path.Live

/-!
# What an action makes of a record

`recast` is what a record becomes under an action, `planned` the write that lands it, and
`judgeAction_spec` says that the judgment plans exactly that write. `commanded` is the action the
rules have for a field behind a chain.
-/

namespace ProtobufEdit.Inplace

open Wire Varint Base128 ProtobufEdit.Path Cursor

/-- What a record becomes under an action; `none` where the action does not fit it. A replacement
is its dialect's. -/
def recast (standard : Standard) (r : Record) : Action → Option (List Record)
  | .setVarint v =>
    match r.payload with
    | .varint word =>
      if widthFits standard (encodedLen64 v.toNat) word.length then
        some [{ r with payload := .varint (write64At v.toNat word.length) }]
      else none
    | _ => none
  | .setI32 bits =>
    match r.payload with
    | .i32 _ => some [{ r with payload := .i32 (toLeBytes 4 bits.toNat) }]
    | _ => none
  | .setI64 bits =>
    match r.payload with
    | .i64 _ => some [{ r with payload := .i64 (toLeBytes 8 bits.toNat) }]
    | _ => none
  | .setPayload bytes =>
    match r.payload with
    | .len word payload =>
      if bytes.length = payload.length then some [{ r with payload := .len word bytes }] else none
    | _ => none
  | .renumber field =>
    let word := tagWord field r.payload.kind.low3
    if widthFits standard (encodedLen32 word) r.tag.length then
      some [{ r with field, tag := write64At word r.tag.length }]
    else none
  | .replaceRecord _ => none
  | .tombstone field =>
    if r.bytes.length < fillerNeed field then none else some (fillers standard r.bytes.length field)

/-- What the action promises of a record: what it names is new, and nothing else. -/
def Does (standard : Standard) (r : Record) (out : List Record) : Action → Prop
  | .setVarint v => ∃ old word, r.payload = .varint old ∧ word.length = old.length ∧
      value word = v.toNat ∧ out = [{ r with payload := .varint word }]
  | .setI32 bits => ∃ old new, r.payload = .i32 old ∧ fromLeBytes new = bits.toNat ∧
      out = [{ r with payload := .i32 new }]
  | .setI64 bits => ∃ old new, r.payload = .i64 old ∧ fromLeBytes new = bits.toNat ∧
      out = [{ r with payload := .i64 new }]
  | .setPayload bytes => ∃ word old, r.payload = .len word old ∧
      out = [{ r with payload := .len word bytes }]
  | .renumber field => ∃ tag, tag.length = r.tag.length ∧ out = [{ r with field, tag }]
  | .replaceRecord bytes => ∃ r', r'.bytes = bytes ∧ out = [r']
  | .tombstone field => Filled standard field r.bytes.length out

/-- The write an action plans over a record standing at `head`. -/
def planned (head : Nat) (r : Record) : Action → Write
  | .setVarint v => .varint (head + r.tag.length) r.payload.bytes.length v
  | .setI32 bits => .fixed32 (head + r.tag.length) bits
  | .setI64 bits => .fixed64 (head + r.tag.length) bits
  | .setPayload bytes => .payload (head + r.tag.length + r.payload.lenWidth) bytes
  | .renumber field => .tag head r.tag.length (tagWord field r.payload.kind.low3)
  | .replaceRecord bytes => .payload head bytes
  | .tombstone field => .filler head r.bytes.length field

/-- A write lands inside an extent, where the new bytes stand then. -/
def Lands (standard : Standard) (met out : List UInt8) (head : Nat) (w : Write) : Prop :=
  ∃ before old after, met = before ++ old ++ after ∧ w.pos = head + before.length ∧
    (w.bytes standard).length = old.length ∧ out = before ++ w.bytes standard ++ after

section Lands

variable {standard : Standard} {met out : List UInt8} {head : Nat} {w : Write}

theorem Lands.whole (hpos : w.pos = head) (hlen : (w.bytes standard).length = met.length)
    (hout : out = w.bytes standard) : Lands standard met out head w :=
  ⟨[], met, [], (List.append_nil _).symm, hpos, hlen, by rw [hout, List.append_nil]; rfl⟩

theorem Lands.extent (h : Lands standard met out head w) : out.length = met.length := by
  obtain ⟨before, old, after, rfl, -, hlen, rfl⟩ := h
  simp only [List.length_append, hlen]

/-- A write that lands puts the new bytes where the old ones stood. -/
theorem Lands.commits {before : List UInt8} (h : Lands standard met out before.length w)
    (after : List UInt8) :
    commit standard (before ++ met ++ after) [w] = some (before ++ out ++ after) ∧
      Apart standard before.length (before.length + met.length) [w] := by
  obtain ⟨front, old, behind, rfl, hpos, hlen, rfl⟩ := h
  have hpos' : w.pos = (before ++ front).length := by rw [hpos, List.length_append]
  have hland := @land_between standard _ (before ++ front) old (behind ++ after) hpos' hlen
  refine ⟨?_, .single (by rw [hpos]; omega) ?_⟩
  · rw [commit_singleton]
    simp only [List.append_assoc] at hland ⊢
    exact hland
  · rw [Write.stop, hpos, hlen]
    simp only [List.length_append]
    omega

end Lands

/-! ## Runs of writes -/

/-- A run of writes, told where it starts, turns some bytes into others as long wherever they
stand, and touches nothing else. -/
structure Patches (standard : Standard) (writes : Nat → List Write) (met out : List UInt8) :
    Prop where
  length : out.length = met.length
  commits : ∀ before after, commit standard (before ++ met ++ after) (writes before.length) =
    some (before ++ out ++ after)
  apart : ∀ head, Apart standard head (head + met.length) (writes head)

section Patches

variable {standard : Standard} {met out met' out' opener opener' closer closer' : List UInt8}
  {ws ws' front back : Nat → List Write}

theorem Patches.keep (standard : Standard) (met : List UInt8) :
    Patches standard (fun _ => []) met met :=
  ⟨rfl, fun _ _ => rfl, fun _ => .nil _ _ _⟩

theorem Patches.one {w : Nat → Write} (h : ∀ head, Lands standard met out head (w head)) :
    Patches standard (fun head => [w head]) met out := by
  refine ⟨(h 0).extent, fun before after => ((h before.length).commits after).1, fun head => ?_⟩
  have hapart := (@Lands.commits standard met out _ (List.replicate head 0)
    (by rw [List.length_replicate]; exact h head) []).2
  rwa [List.length_replicate] at hapart

theorem Patches.append (h : Patches standard ws met out) (h' : Patches standard ws' met' out') :
    Patches standard (fun head => ws head ++ ws' (head + met.length)) (met ++ met')
      (out ++ out') := by
  refine ⟨by rw [List.length_append, List.length_append, h.length, h'.length],
    fun before after => ?_, fun head => ?_⟩
  · have hfirst := h.commits before (met' ++ after)
    have hsecond := h'.commits (before ++ out) after
    rw [List.length_append, h.length] at hsecond
    rw [commit_append, ← List.append_assoc before, List.append_assoc _ met', hfirst,
      Option.bind_some, ← List.append_assoc, hsecond, List.append_assoc before]
  · rw [List.length_append, ← Nat.add_assoc]
    exact (h.apart head).append (h'.apart _) (Nat.le_add_right _ _) (Nat.le_add_right _ _)

/-- The inside first, then what stands on either side of it. -/
theorem Patches.around (h : Patches standard ws met out)
    (ho : Patches standard front opener opener') (hc : Patches standard back closer closer') :
    Patches standard
      (fun head => ws (head + opener.length) ++
        (front head ++ back (head + opener.length + met.length)))
      (opener ++ met ++ closer) (opener' ++ out ++ closer') := by
  refine ⟨by simp only [List.length_append, h.length, ho.length, hc.length],
    fun before after => ?_, fun head => ?_⟩
  · have hin := h.commits (before ++ opener) (closer ++ after)
    have hfront := ho.commits before (out ++ closer ++ after)
    have hback := hc.commits (before ++ opener' ++ out) after
    simp only [List.length_append, ho.length, h.length, List.append_assoc] at hin hfront hback ⊢
    rw [commit_append, hin, Option.bind_some, commit_append, hfront, Option.bind_some]
    rw [← Nat.add_assoc] at hback
    exact hback
  · have hin := h.apart (head + opener.length)
    have hfront := ho.apart head
    have hback := hc.apart (head + opener.length + met.length)
    have hall := (hfront.append hin (Nat.le_add_right _ _) (Nat.le_add_right _ _)).append hback
      (by omega) (Nat.le_add_right _ _)
    have hstop : head + (opener ++ met ++ closer).length =
        head + opener.length + met.length + closer.length := by
      simp only [List.length_append]
      omega
    rw [hstop]
    refine hall.perm ?_
    rw [← List.append_assoc]
    exact List.perm_append_comm.append_right _

end Patches

section Recast

variable {standard : Standard} {r : Record} {out : List Record} {a : Action}

/-- An action that fits a lawful record keeps its promise, and its write lands it. -/
theorem recast_spec (hr : r.Lawful standard) (hle : r.bytes.length ≤ PayloadLen.max)
    (h : recast standard r a = some out) (head : Nat) :
    (∀ r' ∈ out, r'.Lawful standard) ∧ Does standard r out a ∧
      Lands standard r.bytes (out.flatMap Record.bytes) head (planned head r a) := by
  obtain ⟨field, tag, payload⟩ := r
  have htag := hr.isTag
  have hpay := hr.payload
  cases a with
  | setVarint v =>
    cases payload with
    | varint word =>
      simp only [recast] at h
      split_ifs at h with hfits
      cases h
      have hmin : Window.value.minimal v.toNat = width v.toNat := encodedLen64_eq v.toNat_lt
      have hword := admits_write hmin hfits hpay.isWord.fits v.toNat_lt
      refine ⟨List.forall_mem_singleton.mpr ⟨htag, hword⟩,
        ⟨word, _, rfl, write64At_length _ _, value_write hmin hfits, rfl⟩, tag, word, [], ?_, rfl,
        write64At_length _ _, ?_⟩ <;>
        simp [Record.bytes, Payload.bytes, planned, Write.bytes]
    | _ => cases h
  | setI32 bits =>
    cases payload with
    | i32 old =>
      cases h
      have hlen : (toLeBytes 4 bits.toNat).length = 4 := toLeBytes_length _ _
      have hold : old.length = 4 := hpay
      refine ⟨List.forall_mem_singleton.mpr ⟨htag, hlen⟩,
        ⟨old, _, rfl, fromLeBytes_toLeBytes bits.toNat_lt, rfl⟩, tag, old, [], ?_, rfl,
        hlen.trans hold.symm, ?_⟩ <;>
        simp [Record.bytes, Payload.bytes, planned, Write.bytes]
    | _ => cases h
  | setI64 bits =>
    cases payload with
    | i64 old =>
      cases h
      have hlen : (toLeBytes 8 bits.toNat).length = 8 := toLeBytes_length _ _
      have hold : old.length = 8 := hpay
      refine ⟨List.forall_mem_singleton.mpr ⟨htag, hlen⟩,
        ⟨old, _, rfl, fromLeBytes_toLeBytes bits.toNat_lt, rfl⟩, tag, old, [], ?_, rfl,
        hlen.trans hold.symm, ?_⟩ <;>
        simp [Record.bytes, Payload.bytes, planned, Write.bytes]
    | _ => cases h
  | setPayload bytes =>
    cases payload with
    | len word old =>
      simp only [recast] at h
      split_ifs at h with hlen
      cases h
      refine ⟨List.forall_mem_singleton.mpr ⟨htag, hpay.1, hpay.2.trans hlen.symm⟩,
        ⟨word, old, rfl, rfl⟩, tag ++ word, old, [], ?_, ?_, hlen, ?_⟩ <;>
        simp [Record.bytes, Payload.bytes, planned, Write.bytes, Write.pos, Payload.lenWidth,
          Nat.add_assoc]
    | _ => cases h
  | renumber new =>
    simp only [recast] at h
    split_ifs at h with hfits
    cases h
    refine ⟨List.forall_mem_singleton.mpr ⟨isTag_write hfits htag.admits.isWord.fits, hpay⟩,
      ⟨_, write64At_length _ _, rfl⟩, [], tag, payload.bytes, rfl, rfl, write64At_length _ _, ?_⟩
    simp [Record.bytes, planned, Write.bytes]
  | replaceRecord bytes => cases h
  | tombstone filler =>
    simp only [recast] at h
    split_ifs at h with hneed
    cases h
    have hfilled := fillers_filled standard (Nat.le_of_not_lt hneed) hle
    refine ⟨hfilled.lawful, hfilled, .whole rfl ?_ (fill_eq _ _ _).symm⟩
    rw [planned, Write.bytes, fill_eq]
    exact hfilled.width

end Recast

/-! ## The judgment -/

section Judge

variable {β : Type} {standard : Standard} {r : Record} {a : Action}
  {replacement : List UInt8 → Nat → Option (Except (FaultKind β) Unit)}

theorem kindOf_value (p : Payload) : kindOf p.value = p.kind := by cases p <;> rfl

theorem judgeAction_replace (rule : Nat) (bytes : List UInt8) (head : Nat) :
    judgeAction standard replacement rule (.replaceRecord bytes) head r.tag.length
        (head + r.bytes.length) r.payload.value =
      judgeReplaced (replacement bytes r.bytes.length) bytes head := by
  rw [← Nat.add_sub_cancel_left (n := head) (m := r.bytes.length)]
  cases r.payload <;> simp [judgeAction]

/-- An action that is not a replacement is judged as it fits the record, and plans its own
write. -/
theorem judgeAction_spec (rule : Nat) (ha : ∀ bytes, a ≠ .replaceRecord bytes) (head : Nat) :
    (∃ out, recast standard r a = some out ∧
        judgeAction standard replacement rule a head r.tag.length (head + r.bytes.length)
          r.payload.value = some (.ok (planned head r a))) ∨
      recast standard r a = none ∧ ∃ kind,
        judgeAction standard replacement rule a head r.tag.length (head + r.bytes.length)
          r.payload.value = some (.error kind) := by
  have hbytes : r.bytes.length = r.tag.length + r.payload.bytes.length := List.length_append
  have hslot : head + r.bytes.length - (head + r.tag.length) = r.payload.bytes.length := by omega
  have hextent : head + r.bytes.length - head = r.bytes.length := Nat.add_sub_cancel_left _ _
  cases a with
  | setVarint v =>
    cases hp : r.payload with
    | varint word =>
      rw [hp] at hslot
      simp only [judgeAction, recast, hp, Payload.value, hslot, Payload.bytes, planned]
      split
      · exact .inl ⟨_, rfl, rfl⟩
      · exact .inr ⟨rfl, _, rfl⟩
    | _ => exact .inr ⟨by simp only [recast, hp], _, rfl⟩
  | setI32 bits =>
    cases hp : r.payload with
    | i32 old => exact .inl ⟨_, by simp only [recast, hp]; rfl, rfl⟩
    | _ => exact .inr ⟨by simp only [recast, hp], _, rfl⟩
  | setI64 bits =>
    cases hp : r.payload with
    | i64 old => exact .inl ⟨_, by simp only [recast, hp]; rfl, rfl⟩
    | _ => exact .inr ⟨by simp only [recast, hp], _, rfl⟩
  | setPayload new =>
    cases hp : r.payload with
    | len word payload =>
      have hpos : head + r.bytes.length - payload.length = head + r.tag.length + word.length := by
        rw [hbytes, hp, Payload.bytes, List.length_append]
        omega
      simp only [judgeAction, recast, hp, Payload.value, hpos, planned, Payload.lenWidth]
      split
      · exact .inl ⟨_, rfl, rfl⟩
      · exact .inr ⟨rfl, _, rfl⟩
    | _ => exact .inr ⟨by simp only [recast, hp], _, rfl⟩
  | renumber field =>
    have hjudge : judgeAction standard replacement rule (.renumber field) head r.tag.length
        (head + r.bytes.length) r.payload.value =
      if widthFits standard (encodedLen32 (tagWord field r.payload.kind.low3)) r.tag.length then
        some (.ok (planned head r (.renumber field)))
      else some (.error (.tagWidth rule (encodedLen32 (tagWord field r.payload.kind.low3))
        r.tag.length)) := by
      simp only [planned, ← kindOf_value]
      cases r.payload <;> rfl
    rw [hjudge]
    simp only [recast]
    split
    · exact .inl ⟨_, rfl, rfl⟩
    · exact .inr ⟨rfl, _, rfl⟩
  | replaceRecord new => exact absurd rfl (ha new)
  | tombstone field =>
    have hjudge : judgeAction standard replacement rule (.tombstone field) head r.tag.length
        (head + r.bytes.length) r.payload.value =
      some (judgeTombstone rule field head (head + r.bytes.length)) := by
      cases r.payload <;> rfl
    rw [hjudge]
    unfold judgeTombstone
    simp only [recast, hextent]
    split
    · exact .inr ⟨rfl, _, rfl⟩
    · exact .inl ⟨_, rfl, rfl⟩

end Judge

/-! ## What the rules command -/

section Revise

variable (set : RuleSet) (chain : List FieldNumber)

/-- The action of the one rule targeting the field behind the chain; `none` where two do. -/
def commanded (field : FieldNumber) : Option (Option Action) :=
  match set.provider.hits .target chain field with
  | [] => some none
  | [rule] => (action set rule).map some
  | _ => none

/-- The interior the job crosses into, and the field its record is renumbered to: some path
goes on through the record, and no action overwrites it. -/
def entered (r : Record) (action : Option Action) :
    Option (List UInt8 × List UInt8 × Option FieldNumber) :=
  match r.payload, action with
  | .len word payload, none =>
    if set.provider.routes chain r.field then some (word, payload, none) else none
  | .len word payload, some (.renumber field) =>
    if set.provider.routes chain r.field then some (word, payload, some field) else none
  | _, _ => none

theorem entered_some {r : Record} {action : Option Action} {word payload : List UInt8}
    {renumbered : Option FieldNumber}
    (h : entered set chain r action = some (word, payload, renumbered)) :
    r.payload = .len word payload ∧ action = renumbered.map .renumber ∧
      set.provider.routes chain r.field = true := by
  unfold entered at h
  split at h
  · split_ifs at h with hr
    cases h
    exact ⟨‹_›, rfl, hr⟩
  · split_ifs at h with hr
    cases h
    exact ⟨‹_›, rfl, hr⟩
  · cases h

end Revise

section Probe

variable {set : RuleSet} {chain : List FieldNumber} {live : List Path.State} {m : Matcher}

theorem action_of_hit {f : FieldNumber} {lane : Lane} {rule : Nat}
    (h : rule ∈ set.provider.hits lane chain f) : ∃ a, action set rule = some a := by
  have hlt : rule < set.rules.length := by
    have := List.mem_range.mp (List.mem_filter.mp h).1
    rwa [Paths.count, RuleSet.provider, List.length_map] at this
  exact ⟨_, congrArg (Option.map Rule.action) (List.getElem?_eq_getElem hlt)⟩

/-- What the target probe quotes is what is commanded. -/
theorem probe_commanded (h : At set.provider chain m live) (f : FieldNumber) :
    (m.probeTarget f = .none ∧ commanded set chain f = some none) ∨
      (∃ rule a, m.probeTarget f = .one rule ∧ action set rule = some a ∧
        commanded set chain f = some (some a)) ∨
      ∃ i j, m.probeTarget f = .conflict i j ∧ commanded set chain f = none := by
  rw [h.probeTarget]
  unfold commanded
  cases hh : set.provider.hits .target chain f with
  | nil => exact .inl ⟨rfl, rfl⟩
  | cons rule rules =>
    cases rules with
    | nil =>
      obtain ⟨a, ha⟩ := action_of_hit (hh ▸ List.mem_singleton_self rule)
      exact .inr (.inl ⟨rule, a, rfl, ha, by simp only [ha]; rfl⟩)
    | cons rule' rules => exact .inr (.inr ⟨rule, rule', rfl, rfl⟩)

end Probe

end ProtobufEdit.Inplace
