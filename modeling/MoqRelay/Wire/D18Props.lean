import MoqRelay.Wire.D22Messages

/-!
# Wire/D18Props — draft-18 Track Properties, checked on both sides

`moq_d18_validate_track_properties`, which the encoders of SUBSCRIBE_OK, PUBLISH, TRACK_STATUS_OK
and FETCH_OK ask about a block, and `d18_scan_track_properties`, which their decoders run over it.
Both are one walker with other flags, then a second walker for the defaults.  Only the decoder looks
at the range of the default group order, so it refuses what the encoder let pass exactly when such a
value is out of range (`validate_scan_iff`).
-/

namespace MoqRelay.D18

open List

/-- The call on the contents of an immutable container. -/
def inContainer (inner : Bytes → Except D22Error Bool) (kvp : D22Kvp) : Except D22Error Bool :=
  if kvp.type = 0x0B then inner kvp.bytes else .ok false

/-- `d18_validate_props_inner`, from one pair on: whether a mandatory property is there.  It is an
error unless it is to be reported. -/
def validatePropsInner (report inbound : Bool) (inner : Bytes → Except D22Error Bool) :
    ℕ → UInt64 → Bytes → Except D22Error Bool
  | 0, _, _ => .ok false
  | n + 1, prev, d =>
    if d = [] then .ok false
    else
      match decodeKvp prev d with
      | .error _ => .error .proto
      | .ok (kvp, d) => do
        let mandatory : Bool := 0x4000 ≤ kvp.type && kvp.type ≤ 0x7FFF
        refuse (mandatory && !report) .proto
        let nested ← inContainer inner kvp
        refuse (kvp.type = 0x30 && kvp.integer > 1) .proto
        refuse (inbound && kvp.type = 0x22 && (kvp.integer < 1 || kvp.integer > 2)) .proto
        let rest ← validatePropsInner report inbound inner n kvp.type d
        return mandatory || nested || rest

/-- `d18_validate_props_inner` of a block: no container stands in a container. -/
def validateProps (report inbound : Bool) (d : Bytes) : Except D22Error Bool :=
  validatePropsInner report inbound
    (fun d => validatePropsInner report inbound (fun _ => .error .proto) d.length 0 d) d.length 0 d

/-- `moq_d18_validate_track_properties`. -/
def validateTrackProperties (d : Bytes) : Except D22Error Unit := do
  let _ ← validateProps false false d
  scanDefaultPublisherPriority d

/-- `d18_scan_track_properties`: whether a mandatory property is there. -/
def scanTrackProperties (d : Bytes) : Except D22Error Bool := do
  let mandatory ← validateProps true true d
  scanDefaultPublisherPriority d
  return mandatory

/-- The pairs of a block, up to one that cannot be read. -/
def pairs : ℕ → UInt64 → Bytes → List D22Kvp
  | 0, _, _ => []
  | n + 1, prev, d =>
    match decodeKvp prev d with
    | .error _ => []
    | .ok (kvp, d) => kvp :: pairs n kvp.type d

/-- A default group order, if it is one, is ascending or descending. -/
def OrderInRange (kvp : D22Kvp) : Prop := kvp.type = 0x22 → 1 ≤ kvp.integer ∧ kvp.integer ≤ 2

/-- Every default group order of a block is in range, and so is every one in a container. -/
def OrdersInRange (d : Bytes) : Prop :=
  ∀ kvp ∈ pairs d.length 0 d, OrderInRange kvp ∧
    (kvp.type = 0x0B → ∀ kvp' ∈ pairs kvp.bytes.length 0 kvp.bytes, OrderInRange kvp')

variable {strict lenient : Bytes → Except D22Error Bool} {Inner : Bytes → Prop}

/-- **What the strict walker accepts**, the walker of the decoder accepts as free of mandatory
properties, exactly when the group orders are in range. -/
theorem validatePropsInner_iff
    (hinner : ∀ b x, strict b = .ok x → (lenient b = .ok false ↔ Inner b)) :
    ∀ (n : ℕ) (prev : UInt64) (d : Bytes) (x : Bool),
      validatePropsInner false false strict n prev d = .ok x →
      (validatePropsInner true true lenient n prev d = .ok false ↔
        ∀ kvp ∈ pairs n prev d, OrderInRange kvp ∧ (kvp.type = 0x0B → Inner kvp.bytes))
  | 0, _, _, _, _ => by simp [validatePropsInner, pairs]
  | n + 1, prev, d, x, h => by
    unfold validatePropsInner at h ⊢
    unfold pairs
    split_ifs at h ⊢ with hd
    · subst hd
      exact ⟨fun _ => nofun, fun _ => rfl⟩
    cases hkvp : decodeKvp prev d with
    | error e => rw [hkvp] at h; cases h
    | ok y =>
      obtain ⟨kvp, d'⟩ := y
      rw [hkvp] at h
      dsimp only at h ⊢
      obtain ⟨_, hmandatory, h⟩ := except_bind_eq_ok h
      obtain ⟨nested, hnested, h⟩ := except_bind_eq_ok h
      obtain ⟨_, hgroups, h⟩ := except_bind_eq_ok h
      obtain ⟨_, -, h⟩ := except_bind_eq_ok h
      obtain ⟨rest, hrest, -⟩ := except_bind_eq_ok h
      have hno : (decide (0x4000 ≤ kvp.type) && decide (kvp.type ≤ 0x7FFF)) = false := by
        simpa using refuse_eq_ok hmandatory
      have hcontainer : inContainer lenient kvp = .ok false ↔
          (kvp.type = 0x0B → Inner kvp.bytes) := by
        unfold inContainer at hnested ⊢
        split_ifs at hnested ⊢ with htype
        · simp [htype, hinner _ _ hnested]
        · simp [htype]
      have horder : refuse (true && kvp.type = 0x22 && (kvp.integer < 1 || kvp.integer > 2))
          .proto = .ok () ↔ OrderInRange kvp := by
        unfold refuse OrderInRange
        split_ifs with hbad <;> simp at hbad ⊢ <;> grind
      rw [forall_mem_cons, ← validatePropsInner_iff hinner n kvp.type d' rest hrest, ← hcontainer,
        ← horder, hno, hgroups]
      cases inContainer lenient kvp <;>
        cases refuse (true && kvp.type = 0x22 && (kvp.integer < 1 || kvp.integer > 2)) .proto <;>
        cases validatePropsInner true true lenient n kvp.type d' <;>
        simp [refuse, bind, Except.bind, pure, Except.pure]

/-- **A block that the encoder accepts is accepted by the decoder**, as one without a mandatory
property, exactly when its default group orders are in range. -/
theorem validate_scan_iff (d : Bytes) :
    (validateTrackProperties d = .ok () → scanTrackProperties d = .ok false) ↔
      (validateTrackProperties d = .ok () → OrdersInRange d) := by
  refine imp_congr_right fun h => ?_
  obtain ⟨x, hx, hdefaults⟩ := except_bind_eq_ok h
  have hinner := fun b x => @validatePropsInner_iff (fun _ => .error .proto)
    (fun _ => .error .proto) (fun _ => True) (fun _ _ => nofun) b.length 0 b x
  have hblock := validatePropsInner_iff hinner d.length 0 d x hx
  simp only [implies_true, and_true] at hblock
  unfold OrdersInRange scanTrackProperties validateProps
  rw [← hblock, hdefaults]
  cases validatePropsInner true true _ d.length 0 d <;> simp [bind, Except.bind, pure, Except.pure]

/-- **A default group order of three** passes the encoder's check and is refused by the decoder. -/
theorem validate_scan_differ :
    validateTrackProperties [0x22, 3] = .ok () ∧ scanTrackProperties [0x22, 3] = .error .proto := by
  decide +kernel

end MoqRelay.D18
