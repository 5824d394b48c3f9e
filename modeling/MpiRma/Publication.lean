/-
  MpiRma/Publication.lean
  =======================
  **Creating a segment.**  The discipline of segments: between its calls a handle has what
  its fields say, and nothing else.  `create` is followed from one system call to the next by
  what its handle has; every failing exit hands back the descriptor, the mapping and the name,
  and the store of the revision finds the rest of the image in place.
-/
import MpiRma.Holdings

namespace MpiRma

/-! ### The discipline -/

structure Local.Empty (v : Local) : Prop where
  descriptor : v.descriptor = none
  mapping : v.mapping = none
  link : v.link = none

def PublishedAt (w : Node) (o size : Nat) : Prop :=
  ∃ name revision payload obj, PublishedBy w o name revision payload obj ∧
    size = Segment.HEADER + payload.length

structure Handle (t : Nat) (s : Segment) (v : Local) (w : Node) : Prop where
  view : v.Of t w
  refused : v.refused = s.failed.isSome
  detached : s.base = none → v.detached = true
  descriptor : v.descriptor = none
  mapping : ∃ o, v.target = some o ∧ PublishedAt w o s.size ∧
    ∃ writable, v.mapping = s.base.map fun base => (base, o, s.size, writable)
  link : v.link = if s.owner then some s.name else none

def Local.unborn : Local := ⟨.unborn, none, none, false, false, false, none, none, none, none⟩

def AtRest (t : Nat) (w : Node) : Prop :=
  match w.life t with
  | .unborn => Local.unborn.Of t w
  | .opening => False
  | .held s => ∃ v, Handle t s v w
  | .failed => ∃ v : Local, v.Of t w ∧ v.Empty
  | .dropped => ∃ v : Local, v.Of t w ∧ v.Empty
  | .aborted => True

theorem PublishedAt.grows {w w' : Node} {o size : Nat} (h : PublishedAt w o size)
    (hgrow : Growing w w') : PublishedAt w' o size := by
  obtain ⟨name, revision, payload, obj, hby, hsize⟩ := h
  exact ⟨name, revision, payload, obj, hby.grows hgrow, hsize⟩

/-- A handle keeps what it has while only its life changes. -/
theorem Handle.lives {t : Nat} {s : Segment} {v : Local} {w w' : Node} {life : Life}
    (h : Handle t s v w) (hgrow : Growing w w') (hv : Local.Of { v with life := life } t w') :
    Handle t s { v with life := life } w' := by
  obtain ⟨o, htarget, hpublished, hmapping⟩ := h.mapping
  exact ⟨hv, h.refused, h.detached, h.descriptor,
    ⟨o, htarget, hpublished.grows hgrow, hmapping⟩, h.link⟩

theorem Handle.rely {t : Nat} {s : Segment} {v : Local} {w w' : Node} (h : Handle t s v w)
    (hrely : SegmentRely t w w') : Handle t s v w' :=
  h.lives hrely.grows (hrely.view v h.view)

theorem AtRest.stable {t : Nat} {w w' : Node} (hrely : SegmentRely t w w') (h : AtRest t w) :
    AtRest t w' := by
  unfold AtRest at h ⊢
  rw [hrely.life]
  split at h
  · exact hrely.view _ h
  · exact h
  · obtain ⟨v, h⟩ := h
    exact ⟨v, h.rely hrely⟩
  · obtain ⟨v, hv, hempty⟩ := h
    exact ⟨v, hrely.view v hv, hempty⟩
  · obtain ⟨v, hv, hempty⟩ := h
    exact ⟨v, hrely.view v hv, hempty⟩
  · trivial

def segmentDiscipline : Discipline Node where
  inv := SegmentInv
  rely := SegmentRely
  idle := AtRest
  rely_refl := SegmentRely.refl
  rely_trans _ _ _ _ := SegmentRely.trans
  idle_stable _ _ _ := AtRest.stable

section Programs

variable {t : Nat} {call : SegmentRequest} {w w' : Node} {v : Local}

abbrev segmentContract (t : Nat) (call : SegmentRequest) :
    Program.Contract OsCall OsCall.Answer Node :=
  segmentDiscipline.contract segmentMachine t call

abbrev segmentReturns (t : Nat) (call : SegmentRequest) : SegmentOutcome → Node → Prop :=
  segmentDiscipline.Returns segmentMachine t call

theorem segmentContract_intro {c : OsCall} {Q : c.Answer → Node → Prop}
    (h : ∀ w₁, SegmentRely t w w₁ → SegmentInv w₁ → ∀ ending a w₂,
      Node.exec t call c ending w₁ = some (a, w₂) → ∃ v, Moved t w₁ w₂ v ∧ Q a w₂) :
    segmentContract t call c Q w := by
  rintro w₁ hrely hinv a w₂ ⟨ending, hexec⟩
  obtain ⟨v, hmoved, hQ⟩ := h w₁ hrely hinv ending a w₂ hexec
  exact ⟨hmoved.inv, hmoved.own.rely, hQ⟩

/-- A call returns when its handle is at rest with what it returns. -/
theorem returns_segment {outcome : SegmentOutcome}
    (h : ∀ w₁, SegmentRely t w w₁ → SegmentInv w₁ →
      AtRest t (Node.finish t call outcome w₁) ∧ Logged w₁ t call outcome) :
    segmentReturns t call outcome w := by
  intro w₁ hrely hinv
  obtain ⟨hrest, hlogged⟩ := h w₁ hrely hinv
  have hlife : ∀ u, u ≠ t → (Node.finish t call outcome w₁).life u = w₁.life u := by
    intro u hu
    unfold Node.finish
    dsimp only
    split
    all_goals
      first
      | exact Function.update_of_ne hu _ _
      | rfl
  have hothers : ∀ u, u ≠ t → SegmentRely u w₁ (Node.finish t call outcome w₁) := fun u hu =>
    { SegmentRely.refl u w₁ with life := hlife u hu }
  have hsame : ∀ u call' outcome', Logged w₁ u call' outcome' →
      Logged (Node.finish t call outcome w₁) u call' outcome' := by
    intro u call' outcome' h
    refine h.mono (fun o ho => ?_) (fun hd => ?_) (Growing.refl w₁)
    · exact ho
    · exact hd
  refine ⟨⟨hinv.strays, fun u => ?_, fun u call' outcome' hmem => ?_⟩, hothers, hrest⟩
  · obtain ⟨v, hv, hsound⟩ := hinv.handles u
    exact ⟨{ v with life := (Node.finish t call outcome w₁).life u }, { hv with life := rfl },
      hsound.object, hsound.link, hsound.descriptor, hsound.mapping⟩
  · rcases List.mem_cons.mp hmem with heq | hmem
    · obtain ⟨rfl, hreturned⟩ := Prod.mk.inj heq
      obtain ⟨rfl, rfl⟩ := Prod.mk.inj hreturned
      exact hsame _ _ _ hlogged
    · exact hsame _ _ _ (hinv.log u call' outcome' hmem)

theorem returns_aborted : segmentReturns t call .aborted w := by
  apply returns_segment
  intro w₁ _ _
  constructor
  · unfold AtRest
    rw [show (Node.finish t call .aborted w₁).life t = .aborted from Function.update_self ..]
    trivial
  · exact logged_silent rfl

/-- A failed `create` or `open` leaves its handle with nothing. -/
theorem returns_failed {done : Except IoError Segment → SegmentOutcome} {e : IoError}
    (hdone : done = .created ∨ done = .opened) (hv : v.Of t w) (hempty : v.Empty) :
    segmentReturns t call (done (.error e)) w := by
  apply returns_segment
  intro w₁ hrely _
  have hv₁ := hrely.view v hv
  have hlife : (Node.finish t call (done (.error e)) w₁).life t = .failed := by
    rcases hdone with rfl | rfl
    · exact Function.update_self ..
    · exact Function.update_self ..
  constructor
  · unfold AtRest
    rw [hlife]
    exact ⟨{ v with life := .failed }, { hv₁ with life := hlife },
      ⟨hempty.descriptor, hempty.mapping,
      hempty.link⟩⟩
  · rcases hdone with rfl | rfl
    · exact logged_silent rfl
    · exact logged_silent rfl

/-- A successful one hands out the fields of what it has. -/
theorem returns_held {done : Except IoError Segment → SegmentOutcome} {s : Segment}
    (hdone : done = .created ∨ done = .opened) (h : Handle t s v w)
    (hlogged : ∀ w₁, SegmentRely t w w₁ → Logged w₁ t call (done (.ok s))) :
    segmentReturns t call (done (.ok s)) w := by
  apply returns_segment
  intro w₁ hrely _
  have h₁ := h.rely hrely
  have hlife : (Node.finish t call (done (.ok s)) w₁).life t = .held s := by
    rcases hdone with rfl | rfl
    · exact Function.update_self ..
    · exact Function.update_self ..
  refine ⟨?_, hlogged w₁ hrely⟩
  unfold AtRest
  rw [hlife]
  exact ⟨{ v with life := .held s }, h₁.lives (.refl w₁) { h₁.view with life := hlife }⟩

variable {σ α β : Type} {self : σ} {Q : Except Halt α × σ → Node → Prop}

theorem wp_perform {c : OsCall} {f : c.Answer → SegmentCode σ α}
    (h : ∀ w₁, SegmentRely t w w₁ → SegmentInv w₁ → ∀ ending a w₂,
      Node.exec t call c ending w₁ = some (a, w₂) →
      ∃ v, Moved t w₁ w₂ v ∧ (f a self).wp (segmentContract t call) Q w₂) :
    ((Code.perform c >>= f) self).wp (segmentContract t call) Q w := segmentContract_intro h

theorem wp_if {c : Prop} [Decidable c] {a b : SegmentCode σ α}
    (hthen : c → (a self).wp (segmentContract t call) Q w)
    (helse : ¬ c → (b self).wp (segmentContract t call) Q w) :
    ((if c then a else b) self).wp (segmentContract t call) Q w := by
  by_cases hc : c
  · rw [if_pos hc]
    exact hthen hc
  · rw [if_neg hc]
    exact helse hc

/-! ### Cleaning up -/

theorem wp_closeOrAbort {fd o : Nat} {f : Unit → SegmentCode σ α} (hv : v.Of t w)
    (hdescriptor : v.descriptor = some (fd, o)) (hrefused : v.refused = false)
    (habort : ∀ w', Q (.error .abort, self) w')
    (hf : ∀ w', Local.Of { v with descriptor := none } t w' →
      (f () self).wp (segmentContract t call) Q w') :
    ((Segment.closeOrAbort fd >>= f) self).wp (segmentContract t call) Q w := by
  apply segmentContract_intro
  intro w₁ hrely hinv ending answer w₂ hexec
  rcases close_rule hinv (hrely.view v hv) hdescriptor hrefused hexec with
    ⟨errno, rfl, hmoved⟩ | ⟨rfl, hmoved⟩
  · exact ⟨_, hmoved, habort w₂⟩
  · exact ⟨_, hmoved, hf w₂ hmoved.view⟩

theorem wp_munmapOrAbort {base o size : Nat} {writable : Bool} {f : Unit → SegmentCode σ α}
    (hv : v.Of t w) (hmapping : v.mapping = some (base, o, size, writable))
    (hrefused : v.refused = false) (habort : ∀ w', Q (.error .abort, self) w')
    (hf : ∀ w', Local.Of { v with mapping := none, detached := true } t w' →
      (f () self).wp (segmentContract t call) Q w') :
    ((Segment.munmapOrAbort base size >>= f) self).wp (segmentContract t call) Q w := by
  apply segmentContract_intro
  intro w₁ hrely hinv ending answer w₂ hexec
  rcases munmap_rule hinv (hrely.view v hv) hmapping hrefused hexec with
    ⟨errno, rfl, hmoved⟩ | ⟨rfl, hmoved⟩
  · exact ⟨_, hmoved, habort w₂⟩
  · exact ⟨_, hmoved, hf w₂ hmoved.view⟩

theorem wp_shmUnlinkOrAbort {name : Name} {f : Unit → SegmentCode σ α} (hv : v.Of t w)
    (hlink : v.link = some name) (hrefused : v.refused = false)
    (habort : ∀ w', Q (.error .abort, self) w')
    (hf : ∀ w', Local.Of { v with link := none, unlinked := true } t w' →
      (f () self).wp (segmentContract t call) Q w') :
    ((Segment.shmUnlinkOrAbort name >>= f) self).wp (segmentContract t call) Q w := by
  apply segmentContract_intro
  intro w₁ hrely hinv ending answer w₂ hexec
  rcases shmUnlink_rule hinv (hrely.view v hv) hlink hrefused hexec with
    ⟨errno, rfl, hmoved⟩ | ⟨rfl, hmoved⟩
  · exact ⟨_, hmoved, habort w₂⟩
  · exact ⟨_, hmoved, hf w₂ hmoved.view⟩

/-! ### Create -/

abbrev creating (t : Nat) (call : SegmentRequest) (r : Except Halt Segment × Unit) (w : Node) :
    Prop :=
  segmentReturns t call (.of .created r.1) w

/-- The exits of `create` that have the descriptor leave nothing. -/
theorem wp_createExit {name : Name} {fd o : Nat} {e : IoError} (hv : v.Of t w)
    (hdescriptor : v.descriptor = some (fd, o)) (hmapping : v.mapping = none)
    (hlink : v.link = some name) (hrefused : v.refused = false) :
    ((Segment.createExit name fd e : SegmentCode Unit Segment) ()).wp (segmentContract t call)
      (creating t call) w := by
  refine wp_closeOrAbort hv hdescriptor hrefused (fun _ => returns_aborted) fun w' hv' => ?_
  refine wp_shmUnlinkOrAbort hv' hlink hrefused (fun _ => returns_aborted) fun w'' hv'' => ?_
  exact returns_failed (.inl rfl) hv'' ⟨rfl, hmapping, rfl⟩

structure Draft (name : Name) (revision : NonZeroU64) (payload : Bytes) (t base size : Nat)
    (obj : Object) (v : Local) : Prop where
  own : MapsOwn v t base size obj
  made : obj.made = .create name revision payload
  size : size = Segment.HEADER + payload.length
  blank : obj.revision = 0

def Object.blank (call : SegmentRequest) (size : Nat) : Object := ⟨call, size, fun _ => 0⟩

theorem revision_blank (call : SegmentRequest) (size : Nat) :
    (Object.blank call size).revision = 0 := by
  unfold Object.blank Object.revision
  rw [Memory.read_const]
  decide

theorem blank_truncate (call : SegmentRequest) (size : Nat) :
    (Object.blank call 0).truncate size = Object.blank call size := by
  simp [Object.blank, Object.truncate]

theorem blank_allocate (call : SegmentRequest) (size : Nat) :
    (Object.blank call size).allocate size = Object.blank call size := by
  simp [Object.blank, Object.allocate]

theorem blank_growsTo (call : SegmentRequest) (size : Nat) :
    (Object.blank call 0).GrowsTo (Object.blank call size) :=
  ⟨rfl, fun h => absurd rfl h, fun h => absurd (revision_blank call 0) h⟩

theorem bytes_write (obj : Object) (offset : Nat) (data : Bytes) :
    (obj.write offset data).bytes = obj.bytes.write offset data := rfl

theorem revision_write {obj : Object} {offset : Nat} {data : Bytes}
    (haway : offset + data.length ≤ 16 ∨ 24 ≤ offset) :
    (obj.write offset data).revision = obj.revision := by
  unfold Object.write Object.revision
  rw [Memory.read_write_disjoint (by omega)]

theorem Draft.write {name : Name} {revision : NonZeroU64} {payload : Bytes} {base size offset : Nat}
    {obj : Object} {data : Bytes} (h : Draft name revision payload t base size obj v)
    (haway : offset + data.length ≤ 16 ∨ 24 ≤ offset) :
    Draft name revision payload t base size (obj.write offset data)
      { v with object := some (obj.write offset data) } where
  own := h.own.stored
  made := h.made
  size := h.size
  blank := (revision_write haway).trans h.blank

/-- Storing bytes outside the revision of an object that has none yet. -/
theorem wp_storeBytes {name : Name} {revision : NonZeroU64} {payload : Bytes}
    {base size offset : Nat} {data : Bytes} {obj : Object} {f : Unit → SegmentCode σ α}
    (hv : v.Of t w) (hdraft : Draft name revision payload t base size obj v)
    (hfits : offset + data.length ≤ size) (haway : offset + data.length ≤ 16 ∨ 24 ≤ offset)
    (hf : ∀ obj' w', obj' = obj.write offset data → Local.Of { v with object := some obj' } t w' →
      Draft name revision payload t base size obj' { v with object := some obj' } →
      (f () self).wp (segmentContract t call) Q w') :
    ((Segment.storeBytes base offset data >>= f) self).wp (segmentContract t call) Q w := by
  induction data generalizing offset obj v w with
  | nil =>
    have hsame : obj.write offset [] = obj := by
      show ({ obj with bytes := obj.bytes.write offset [] } : Object) = obj
      have hbytes : obj.bytes.write offset [] = obj.bytes := by
        funext i
        simp [Memory.write]
      rw [hbytes]
    exact hf obj w hsame.symm { hv with object := hv.object.trans hdraft.own.object }
      ⟨⟨hdraft.own.mapping, rfl, hdraft.own.size⟩, hdraft.made, hdraft.size, hdraft.blank⟩
  | cons byte rest ih =>
    simp only [List.length_cons] at hfits haway
    have hnext : Draft name revision payload t base size (obj.write offset [byte])
        { v with object := some (obj.write offset [byte]) } := by
      apply hdraft.write
      simp only [List.length_singleton]
      omega
    apply segmentContract_intro
    intro w₁ hrely hinv ending a w₂ hexec
    have hmoved := store_rule hinv (hrely.view v hv) hdraft.own (by omega)
      ⟨rfl, fun _ => rfl, fun hfixed => absurd hdraft.blank hfixed⟩
      ⟨name, revision, payload, hdraft.made, .inr (hdraft.own.size.trans hdraft.size),
        fun hrevision => absurd hnext.blank hrevision⟩ hexec
    refine ⟨_, hmoved, ih hmoved.view hnext (by omega) (by omega) fun obj' w' hobj' => ?_⟩
    refine hf obj' w' (hobj'.trans ?_)
    show ({ obj with bytes := (obj.bytes.write offset [byte]).write (offset + 1) rest } : Object) =
      _
    rw [Memory.write_cons]
    rfl

/-- With the revision stored, the image is whole. -/
theorem published_written {obj : Object} (revision : NonZeroU64) {payload : Bytes}
    (hsize : obj.size = Segment.HEADER + payload.length) :
    ((((obj.write 0 (toLE 8 Segment.MAGIC)).write 8 (toLE 8 payload.length)).write
      Segment.HEADER payload).write 16 (toLE 8 revision.get)).Published revision payload := by
  have hword : ∀ (m : Memory UInt8) (disp value : Nat),
      (m.write disp (toLE 8 value)).read disp 8 = toLE 8 value := by
    intro m disp value
    have := Memory.read_write_self m disp (toLE 8 value)
    rwa [length_toLE] at this
  have hheader : Segment.HEADER = 64 := rfl
  have hmagic : (toLE 8 Segment.MAGIC).length = 8 := length_toLE ..
  have hlength : (toLE 8 payload.length).length = 8 := length_toLE ..
  have hrevision : (toLE 8 revision.get).length = 8 := length_toLE ..
  refine ⟨hsize, ?_, ?_, ?_, ?_⟩
  · rw [bytes_write, bytes_write, bytes_write, bytes_write,
      Memory.read_write_disjoint (by omega), Memory.read_write_disjoint (by omega),
      Memory.read_write_disjoint (by omega), hword]
  · rw [bytes_write, bytes_write, bytes_write,
      Memory.read_write_disjoint (by omega), Memory.read_write_disjoint (by omega), hword]
  · rw [Object.revision, bytes_write, hword, ofLE_toLE_of_lt]
    exact Nat.lt_of_le_of_lt revision.le (by decide)
  · rw [bytes_write, bytes_write, Memory.read_write_disjoint (by omega), Memory.read_write_self]

/-- **The revision is stored last.** -/
theorem wp_publish {base size : Nat} {obj : Object} {f : Unit → SegmentCode σ α} {name : Name}
    {revision : NonZeroU64} {payload : Bytes} (hv : v.Of t w)
    (hdraft : Draft name revision payload t base size obj v)
    (hf : ∀ obj' w', Local.Of { v with object := some obj' } t w' →
      obj'.made = .create name revision payload → obj'.Published revision payload →
      (f () self).wp (segmentContract t call) Q w') :
    ((Segment.publish revision payload base payload.length >>= f) self).wp (segmentContract t call)
      Q w := by
  have hheader : Segment.HEADER = 64 := rfl
  have hmagic : (toLE 8 Segment.MAGIC).length = 8 := length_toLE ..
  have hlength : (toLE 8 payload.length).length = 8 := length_toLE ..
  have hsize := hdraft.size
  have hpublished := published_written revision (hdraft.own.size.trans hsize)
  unfold Segment.publish
  simp only [Code.bind_assoc]
  refine wp_storeBytes hv hdraft (by omega) (.inl (by omega)) fun obj₁ w₁ hobj₁ hv₁ hdraft₁ => ?_
  refine wp_storeBytes hv₁ hdraft₁ (by omega) (.inl (by omega)) fun obj₂ w₂ hobj₂ hv₂ hdraft₂ => ?_
  refine wp_storeBytes hv₂ hdraft₂ (by omega) (.inr (by omega)) fun obj₃ w₃ hobj₃ hv₃ hdraft₃ => ?_
  rw [← hobj₁, ← hobj₂, ← hobj₃] at hpublished
  -- Until here the object has no revision; the last store publishes the whole image at once.
  apply segmentContract_intro
  intro w₄ hrely hinv ending a w₅ hexec
  have hmoved := storeWord_rule hinv (hrely.view _ hv₃) hdraft₃.own (by omega)
    ⟨rfl, fun _ => rfl, fun hfixed => absurd hdraft₃.blank hfixed⟩
    ⟨name, revision, payload, hdraft₃.made, .inr (hdraft₃.own.size.trans hsize),
      fun _ => hpublished⟩ hexec
  exact ⟨_, hmoved, hf _ w₅ hmoved.view hdraft₃.made hpublished⟩

theorem wp_orFail {x : Option β} {e : IoError} {f : β → SegmentCode σ α}
    (hnone : Q (.error (.error e), self) w)
    (hsome : ∀ b, x = some b → (f b self).wp (segmentContract t call) Q w) :
    ((Segment.orFail x e >>= f) self).wp (segmentContract t call) Q w := by
  cases x with
  | none => exact hnone
  | some b => exact hsome b rfl

def Local.creating (call : SegmentRequest) : Local :=
  { Local.unborn with
    life := .opening
    origin := some call }

def Local.sized (name : Name) (t fd : Nat) (obj : Object) : Local :=
  { Local.creating obj.made with
    descriptor := some (fd, t)
    target := some t
    link := some name
    object := some obj }

theorem wp_createMapped {name : Name} {revision : NonZeroU64} {payload : Bytes} {fd size : Nat}
    {obj : Object} (hcall : call = .create name revision payload)
    (hv : (Local.sized name t fd obj).Of t w)
    (hmade : obj.made = .create name revision payload) (hblank : obj.revision = 0)
    (hobj : obj.size = size) (hsize : size = Segment.HEADER + payload.length) :
    (Segment.createMapped name revision payload fd size payload.length ()).wp
      (segmentContract t call) (creating t call) w := by
  apply segmentContract_intro
  intro w₁ hrely hinv ending mapped w₂ hexec
  rcases mmap_rule hinv (hrely.view _ hv) rfl rfl rfl (fun _ => rfl) rfl hexec with
    ⟨errno, rfl, hmoved⟩ | ⟨base, rfl, hmoved⟩
  · exact ⟨_, hmoved, wp_createExit hmoved.view rfl rfl rfl rfl⟩
  refine ⟨_, hmoved, ?_⟩
  apply segmentContract_intro
  intro w₃ hrely₃ hinv₃ ending₃ closed w₄ hexec₃
  rcases close_rule hinv₃ (hrely₃.view _ hmoved.view) rfl rfl hexec₃ with
    ⟨errno, rfl, hclosed⟩ | ⟨rfl, hclosed⟩
  · refine ⟨_, hclosed, wp_munmapOrAbort hclosed.view rfl rfl (fun _ => returns_aborted)
      fun w₅ hv₅ => ?_⟩
    refine wp_shmUnlinkOrAbort hv₅ rfl rfl (fun _ => returns_aborted) fun w₆ hv₆ => ?_
    exact returns_failed (.inl rfl) hv₆ ⟨rfl, rfl, rfl⟩
  refine ⟨_, hclosed, wp_publish hclosed.view ⟨⟨rfl, rfl, hobj⟩, hmade, hsize, hblank⟩ ?_⟩
  intro obj' w₅ hv₅ hmade' hpublished
  refine returns_held (.inl rfl) ⟨hv₅, rfl, nofun, rfl, ⟨t, rfl, ?_, true, rfl⟩, rfl⟩
    fun w₆ hrely₆ => ?_
  · exact ⟨name, revision, payload, obj', ⟨hv₅.object, hmade', hpublished⟩, hsize⟩
  · have hby : PublishedBy w₅ t name revision payload obj' := ⟨hv₅.object, hmade', hpublished⟩
    rw [hcall]
    exact ⟨obj', (hrely₆.view _ hv₅).target, hby.grows hrely₆.grows⟩

/-- **A segment is created, or nothing is left of it.** -/
theorem wp_create {name : Name} {revision : NonZeroU64} {payload : Bytes}
    (hcall : call = .create name revision payload) (hv : (Local.creating call).Of t w) :
    (Segment.create name revision payload ()).wp (segmentContract t call) (creating t call) w := by
  have hfailed : ∀ e w', (Local.creating call).Of t w' →
      segmentReturns t call (.created (.error e)) w' :=
    fun e w' hv' => returns_failed (.inl rfl) hv' ⟨rfl, rfl, rfl⟩
  refine wp_orFail (hfailed _ w hv) fun size hsize => ?_
  obtain ⟨-, hsize⟩ := checkedAdd_eq_some.mp hsize
  refine wp_orFail (hfailed _ w hv) fun length hlength => ?_
  obtain ⟨-, rfl⟩ := tryFrom_eq_some.mp hlength
  refine wp_orFail (hfailed _ w hv) fun sizeOff hoff => ?_
  obtain ⟨-, rfl⟩ := tryFrom_eq_some.mp hoff
  apply segmentContract_intro
  intro w₁ hrely hinv ending opened w₂ hexec
  rcases shmOpenExclusive_rule hinv (hrely.view _ hv) rfl rfl rfl rfl rfl rfl rfl hcall hexec with
    ⟨errno, rfl, hmoved⟩ | ⟨fd, rfl, hmoved⟩
  · exact ⟨_, hmoved, hfailed _ w₂ hmoved.view⟩
  have hopened : (Local.sized name t fd (Object.blank call 0)).Of t w₂ := hmoved.view
  refine ⟨_, hmoved, ?_⟩
  apply segmentContract_intro
  intro w₃ hrely₃ hinv₃ ending₃ truncated w₄ hexec₃
  have hfair : (Object.blank call size).Fair :=
    ⟨name, revision, payload, hcall, .inr hsize, fun h => absurd (revision_blank call size) h⟩
  have htruncate := blank_truncate call size
  have hsizing : (Object.blank call 0).GrowsTo ((Object.blank call 0).truncate size) := by
    rw [htruncate]
    exact blank_growsTo call size
  rcases ftruncate_rule hinv₃ (hrely₃.view _ hopened) rfl rfl rfl hsizing (htruncate ▸ hfair)
      hexec₃ with
    ⟨errno, rfl, hsized⟩ | ⟨rfl, hsized⟩
  · exact ⟨_, hsized, wp_createExit hsized.view rfl rfl rfl rfl⟩
  rw [htruncate] at hsized
  have htruncated : (Local.sized name t fd (Object.blank call size)).Of t w₄ := hsized.view
  refine ⟨_, hsized, ?_⟩
  apply segmentContract_intro
  intro w₅ hrely₅ hinv₅ ending₅ reserved w₆ hexec₅
  have hallocate := blank_allocate call size
  have hreserving : (Object.blank call size).GrowsTo ((Object.blank call size).allocate size) := by
    rw [hallocate]
    exact .refl _
  rcases posixFallocate_rule hinv₅ (hrely₅.view _ htruncated) rfl rfl rfl hreserving
      (hallocate.symm ▸ hfair) hexec₅ with
    ⟨errno, rfl, hreserved⟩ | ⟨rfl, hreserved⟩
  · exact ⟨_, hreserved, wp_createExit hreserved.view rfl rfl rfl rfl⟩
  rw [hallocate] at hreserved
  have hwhole : (Local.sized name t fd (Object.blank call size)).Of t w₆ := hreserved.view
  exact ⟨_, hreserved, wp_createMapped hcall hwhole hcall (revision_blank call size) rfl hsize⟩

end Programs

end MpiRma
