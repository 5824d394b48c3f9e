/-
  MpiRma/Holdings.lean
  ====================
  **What belongs to a handle.**  A `Local` view is everything of the node that only one handle
  may change: its fields, its descriptor, its mapping, its name and its object.  Other
  handles leave the view alone, and each command the handle issues changes it in one way,
  given by one rule below.  What objects of others a handle has opened only grows: once the
  revision is there, nothing changes any more.
-/
import MpiRma.Segment

namespace MpiRma

/-! ### Objects -/

namespace Object

/-- The whole image of a published segment. -/
structure Published (obj : Object) (revision : NonZeroU64) (payload : Bytes) : Prop where
  size : obj.size = Segment.HEADER + payload.length
  magic : obj.bytes.read 0 8 = toLE 8 Segment.MAGIC
  length : obj.bytes.read 8 8 = toLE 8 payload.length
  revision : obj.revision = revision.get
  payload : obj.bytes.read Segment.HEADER payload.length = payload

/-- An object made by `create`: of no size or its whole size, and published as soon as it has
    a revision. -/
def Fair (obj : Object) : Prop :=
  ∃ name revision payload, obj.made = .create name revision payload ∧
    (obj.size = 0 ∨ obj.size = Segment.HEADER + payload.length) ∧
    (obj.revision ≠ 0 → obj.Published revision payload)

/-- What an object may become: sized once, and fixed once it has a revision. -/
structure GrowsTo (obj obj' : Object) : Prop where
  made : obj'.made = obj.made
  size : obj.size ≠ 0 → obj'.size = obj.size
  fixed : obj.revision ≠ 0 → obj' = obj

theorem GrowsTo.refl (obj : Object) : obj.GrowsTo obj := ⟨rfl, fun _ => rfl, fun _ => rfl⟩

theorem GrowsTo.trans {a b c : Object} (h : a.GrowsTo b) (h' : b.GrowsTo c) : a.GrowsTo c := by
  refine ⟨h'.made.trans h.made, fun hsize => ?_, fun hfixed => ?_⟩
  · rw [h'.size (by rw [h.size hsize]; exact hsize), h.size hsize]
  · obtain rfl := h.fixed hfixed
    exact h'.fixed hfixed

end Object

/-! ### Views -/

structure Local where
  life : Life
  origin : Option SegmentRequest
  target : Option Nat
  refused : Bool
  detached : Bool
  unlinked : Bool
  descriptor : Option (Nat × Nat)
  mapping : Option (Nat × Nat × Nat × Bool)
  link : Option Name
  object : Option Object

structure Local.Of (v : Local) (t : Nat) (w : Node) : Prop where
  life : w.life t = v.life
  origin : w.origin t = v.origin
  target : w.target t = v.target
  refused : w.refused t = v.refused
  detached : w.detached t = v.detached
  unlinked : w.unlinked t = v.unlinked
  descriptor : ∀ fd o, w.descriptors fd = some ⟨t, o⟩ ↔ v.descriptor = some (fd, o)
  mapping : ∀ base o size writable, w.mappings base = some ⟨t, o, size, writable⟩ ↔
    v.mapping = some (base, o, size, writable)
  link : ∀ name, w.names name = some t ↔ v.link = some name
  object : w.objects t = v.object

def Growing (w w' : Node) : Prop :=
  ∀ o obj, w.objects o = some obj → ∃ obj', w'.objects o = some obj' ∧ obj.GrowsTo obj'

structure SegmentRely (t : Nat) (w w' : Node) : Prop where
  life : w'.life t = w.life t
  origin : w'.origin t = w.origin t
  target : w'.target t = w.target t
  refused : w'.refused t = w.refused t
  detached : w'.detached t = w.detached t
  unlinked : w'.unlinked t = w.unlinked t
  object : w'.objects t = w.objects t
  descriptors : ∀ fd o, w'.descriptors fd = some ⟨t, o⟩ ↔ w.descriptors fd = some ⟨t, o⟩
  mappings : ∀ base o size writable, w'.mappings base = some ⟨t, o, size, writable⟩ ↔
    w.mappings base = some ⟨t, o, size, writable⟩
  names : ∀ name, w'.names name = some t ↔ w.names name = some t
  grows : Growing w w'

structure Confined (t : Nat) (w w' : Node) : Prop where
  rely : ∀ u, u ≠ t → SegmentRely u w w'
  target : ∀ o, w.target t = some o → w'.target t = some o
  detached : w.detached t = true → w'.detached t = true
  strays : w'.strays = w.strays
  log : w'.log = w.log

theorem SegmentRely.view {t : Nat} {w w' : Node} (h : SegmentRely t w w') (v : Local)
    (hv : v.Of t w) : v.Of t w' where
  life := h.life.trans hv.life
  origin := h.origin.trans hv.origin
  target := h.target.trans hv.target
  refused := h.refused.trans hv.refused
  detached := h.detached.trans hv.detached
  unlinked := h.unlinked.trans hv.unlinked
  descriptor fd o := (h.descriptors fd o).trans (hv.descriptor fd o)
  mapping base o size writable :=
    (h.mappings base o size writable).trans (hv.mapping base o size writable)
  link name := (h.names name).trans (hv.link name)
  object := h.object.trans hv.object

theorem Growing.refl (w : Node) : Growing w w := fun _ obj h => ⟨obj, h, .refl obj⟩

theorem Growing.trans {w w' w'' : Node} (h : Growing w w') (h' : Growing w' w'') :
    Growing w w'' := by
  intro o obj hobj
  obtain ⟨obj', hobj', hgrows⟩ := h o obj hobj
  obtain ⟨obj'', hobj'', hgrows'⟩ := h' o obj' hobj'
  exact ⟨obj'', hobj'', hgrows.trans hgrows'⟩

theorem Growing.isSome {w w' : Node} (h : Growing w w') {o : Nat}
    (hsome : (w.objects o).isSome) : (w'.objects o).isSome := by
  obtain ⟨obj, hobj⟩ := Option.isSome_iff_exists.mp hsome
  obtain ⟨obj', hobj', -⟩ := h o obj hobj
  exact Option.isSome_iff_exists.mpr ⟨obj', hobj'⟩

theorem Confined.objects {t : Nat} {w w' : Node} (h : Confined t w w') : Growing w w' :=
  (h.rely (t + 1) (Nat.succ_ne_self t)).grows

theorem SegmentRely.refl (t : Nat) (w : Node) : SegmentRely t w w :=
  ⟨rfl, rfl, rfl, rfl, rfl, rfl, rfl, fun _ _ => Iff.rfl, fun _ _ _ _ => Iff.rfl, fun _ => Iff.rfl,
    .refl w⟩

theorem SegmentRely.trans {t : Nat} {w w' w'' : Node} (h : SegmentRely t w w')
    (h' : SegmentRely t w' w'') : SegmentRely t w w'' where
  life := h'.life.trans h.life
  origin := h'.origin.trans h.origin
  target := h'.target.trans h.target
  refused := h'.refused.trans h.refused
  detached := h'.detached.trans h.detached
  unlinked := h'.unlinked.trans h.unlinked
  object := h'.object.trans h.object
  descriptors fd o := (h'.descriptors fd o).trans (h.descriptors fd o)
  mappings base o size writable :=
    (h'.mappings base o size writable).trans (h.mappings base o size writable)
  names name := (h'.names name).trans (h.names name)
  grows := h.grows.trans h'.grows

/-! ### The invariant -/

structure PublishedBy (w : Node) (o : Nat) (name : Name) (revision : NonZeroU64) (payload : Bytes)
    (obj : Object) : Prop where
  object : w.objects o = some obj
  made : obj.made = .create name revision payload
  published : obj.Published revision payload

theorem Object.Published.revised {obj : Object} {revision : NonZeroU64} {payload : Bytes}
    (h : obj.Published revision payload) : obj.revision ≠ 0 := by
  rw [h.revision]
  exact Nat.pos_iff_ne_zero.mp revision.pos

/-- What is published does not change. -/
theorem PublishedBy.grows {w w' : Node} {o : Nat} {name : Name} {revision : NonZeroU64}
    {payload : Bytes} {obj : Object} (h : PublishedBy w o name revision payload obj)
    (hgrow : Growing w w') : PublishedBy w' o name revision payload obj := by
  obtain ⟨obj', hobj', hgrows⟩ := hgrow o obj h.object
  obtain rfl := hgrows.fixed h.published.revised
  exact { h with object := hobj' }

def Logged (w : Node) (t : Nat) : SegmentRequest → SegmentOutcome → Prop
  | .create name revision payload, .created (.ok _) => ∃ obj, w.target t = some t ∧
    PublishedBy w t name revision payload obj
  | .open name revision length, .opened (.ok _) => ∃ o obj payload, w.target t = some o ∧
    PublishedBy w o name revision payload obj ∧ payload.length = length
  | .payload, .payload bytes => ∃ o obj name revision, w.target t = some o ∧
    PublishedBy w o name revision bytes obj
  | .payload, .panicked => w.detached t = true
  | _, _ => True

structure Local.Sound (v : Local) (t : Nat) (w : Node) : Prop where
  object : ∀ obj, v.object = some obj → obj.Fair ∧ v.origin = some obj.made ∧ v.target = some t
  link : ∀ name, v.link = some name → v.unlinked = false ∧ ∃ obj revision payload,
    v.object = some obj ∧ obj.made = .create name revision payload
  descriptor : ∀ fd o, v.descriptor = some (fd, o) → v.target = some o ∧ (w.objects o).isSome
  mapping : ∀ base o size writable, v.mapping = some (base, o, size, writable) →
    v.target = some o ∧ (w.objects o).isSome ∧ v.detached = false ∧ (writable = true → o = t)

structure SegmentInv (w : Node) : Prop where
  strays : w.strays = []
  handles : ∀ t, ∃ v : Local, v.Of t w ∧ v.Sound t w
  log : ∀ t call outcome, (t, call, outcome) ∈ w.log → Logged w t call outcome

/-- A returned call stays true while objects grow and targets stay. -/
theorem Logged.mono {w w' : Node} {t : Nat} {call : SegmentRequest} {outcome : SegmentOutcome}
    (htarget : ∀ o, w.target t = some o → w'.target t = some o)
    (hdetached : w.detached t = true → w'.detached t = true) (hgrow : Growing w w')
    (h : Logged w t call outcome) : Logged w' t call outcome := by
  unfold Logged at h ⊢
  split at h
  · obtain ⟨obj, ho, hby⟩ := h
    exact ⟨obj, htarget t ho, hby.grows hgrow⟩
  · obtain ⟨o, obj, payload, ho, hby, hlength⟩ := h
    exact ⟨o, obj, payload, htarget o ho, hby.grows hgrow, hlength⟩
  · obtain ⟨o, obj, name, revision, ho, hby⟩ := h
    exact ⟨o, obj, name, revision, htarget o ho, hby.grows hgrow⟩
  · exact hdetached h
  · trivial

def SegmentOutcome.silent : SegmentOutcome → Bool
  | .created (.ok _) => false
  | .opened (.ok _) => false
  | .payload _ => false
  | .panicked => false
  | _ => true

theorem logged_silent {w : Node} {t : Nat} {call : SegmentRequest} {outcome : SegmentOutcome}
    (h : outcome.silent = true) : Logged w t call outcome := by
  unfold Logged
  split
  · cases h
  · cases h
  · cases h
  · cases h
  · trivial

theorem logged_panicked {w : Node} {t : Nat} {call : SegmentRequest} (h : call ≠ .payload) :
    Logged w t call .panicked := by
  unfold Logged
  split
  · contradiction
  · contradiction
  · contradiction
  · exact absurd rfl h
  · trivial

theorem Local.Sound.grows {v : Local} {t : Nat} {w w' : Node} (h : v.Sound t w)
    (hgrow : Growing w w') : v.Sound t w' where
  object := h.object
  link := h.link
  descriptor fd o hfd := by
    obtain ⟨htarget, hsome⟩ := h.descriptor fd o hfd
    exact ⟨htarget, hgrow.isSome hsome⟩
  mapping base o size writable hbase := by
    obtain ⟨htarget, hsome, hrest⟩ := h.mapping base o size writable hbase
    exact ⟨htarget, hgrow.isSome hsome, hrest⟩

/-- A handle has one view. -/
theorem Local.Of.unique {v v' : Local} {t : Nat} {w : Node} (h : v.Of t w) (h' : v'.Of t w) :
    v = v' := by
  obtain ⟨life, origin, target, refused, detached, unlinked, descriptor, mapping, link, object⟩ := v
  obtain ⟨life', origin', target', refused', detached', unlinked', descriptor', mapping',
    link', object'⟩ := v'
  obtain rfl : life = life' := h.life.symm.trans h'.life
  obtain rfl : origin = origin' := h.origin.symm.trans h'.origin
  obtain rfl : target = target' := h.target.symm.trans h'.target
  obtain rfl : refused = refused' := h.refused.symm.trans h'.refused
  obtain rfl : detached = detached' := h.detached.symm.trans h'.detached
  obtain rfl : unlinked = unlinked' := h.unlinked.symm.trans h'.unlinked
  obtain rfl : object = object' := h.object.symm.trans h'.object
  obtain rfl : descriptor = descriptor' := by
    apply Option.ext
    rintro ⟨fd, o⟩
    exact (h.descriptor fd o).symm.trans (h'.descriptor fd o)
  obtain rfl : mapping = mapping' := by
    apply Option.ext
    rintro ⟨base, o, size, writable⟩
    exact (h.mapping base o size writable).symm.trans (h'.mapping base o size writable)
  obtain rfl : link = link' := by
    apply Option.ext
    intro name
    exact (h.link name).symm.trans (h'.link name)
  rfl

namespace SegmentInv

variable {w : Node}

theorem sound (h : SegmentInv w) {t : Nat} {v : Local} (hv : v.Of t w) : v.Sound t w := by
  obtain ⟨v', hv', hsound⟩ := h.handles t
  obtain rfl := hv.unique hv'
  exact hsound

theorem objects (h : SegmentInv w) {o : Nat} {obj : Object} (hobj : w.objects o = some obj) :
    obj.Fair ∧ w.origin o = some obj.made := by
  obtain ⟨v, hv, hsound⟩ := h.handles o
  obtain ⟨hfair, horigin, -⟩ := hsound.object obj (hv.object.symm.trans hobj)
  exact ⟨hfair, hv.origin.trans horigin⟩

theorem names (h : SegmentInv w) {name : Name} {o : Nat} (hname : w.names name = some o) :
    ∃ obj revision payload, w.objects o = some obj ∧ obj.made = .create name revision payload := by
  obtain ⟨v, hv, hsound⟩ := h.handles o
  obtain ⟨-, obj, revision, payload, hobj, hmade⟩ := hsound.link name ((hv.link name).mp hname)
  exact ⟨obj, revision, payload, hv.object.trans hobj, hmade⟩

/-- The invariant needs a look at what belongs to the handle that moved only. -/
theorem confined {t : Nat} {w' : Node} {v : Local} (h : SegmentInv w) (hown : Confined t w w')
    (hview : v.Of t w') (hsound : v.Sound t w') : SegmentInv w' where
  strays := hown.strays.trans h.strays
  handles u := by
    by_cases hu : u = t
    · subst hu
      exact ⟨v, hview, hsound⟩
    · obtain ⟨v', hv', hsound'⟩ := h.handles u
      exact ⟨v', (hown.rely u hu).view v' hv', hsound'.grows hown.objects⟩
  log u call outcome hmem := by
    have hlogged := h.log u call outcome (hown.log ▸ hmem)
    by_cases hu : u = t
    · subst hu
      exact hlogged.mono hown.target hown.detached hown.objects
    · have hrely := hown.rely u hu
      exact hlogged.mono (fun o ho => hrely.target.trans ho) (fun hd => hrely.detached.trans hd)
        hown.objects

end SegmentInv

/-! ### One command -/

section Updates

variable {α β : Type} [DecidableEq α] {f : α → Option β} {k k' : α} {y : β}

/-- An update away from the entries in question. -/
theorem update_apart {x : Option β} {P : β → Prop} (hold : ∀ z, f k = some z → P z)
    (hnew : ∀ z, x = some z → P z) (hy : ¬ P y) :
    Function.update f k x k' = some y ↔ f k' = some y := by
  by_cases hk : k' = k
  · subst hk
    rw [Function.update_self]
    exact ⟨fun h => absurd (hnew y h) hy, fun h => absurd (hold y h) hy⟩
  · rw [Function.update_of_ne hk]

/-- A first entry. -/
theorem update_only {z : β} (hnone : ∀ k', f k' ≠ some y) :
    Function.update f k (some z) k' = some y ↔ k' = k ∧ z = y := by
  by_cases hk : k' = k
  · subst hk
    simp
  · simp [hk, hnone]

/-- The only entry goes. -/
theorem update_gone (honly : ∀ k', f k' = some y → k' = k) :
    Function.update f k none k' ≠ some y := by
  intro h
  by_cases hk : k' = k
  · subst hk
    simp at h
  · rw [Function.update_of_ne hk] at h
    exact hk (honly k' h)

end Updates

structure Moved (t : Nat) (w w' : Node) (v : Local) : Prop where
  inv : SegmentInv w'
  own : Confined t w w'
  view : v.Of t w'

section Commands

variable {t : Nat} {call : SegmentRequest} {ending : OsEnding} {w w' : Node} {v : Local}

/-- A proper command takes effect and nothing else. -/
theorem exec_of_proper {c : OsCall} {a : c.Answer} (hproper : w.proper t c = true)
    (h : Node.exec t call c ending w = some (a, w')) :
    Node.effect t call c ending w = some (a, w') := by
  obtain ⟨⟨a', w₁⟩, heffect, hresult⟩ := Option.map_eq_some_iff.mp h
  rw [if_pos hproper] at hresult
  rwa [← hresult]

theorem Confined.refl (t : Nat) (w : Node) : Confined t w w :=
  ⟨fun u _ => .refl u w, fun _ => id, id, rfl, rfl⟩

theorem Confined.trans {w'' : Node} (h : Confined t w w') (h' : Confined t w' w'') :
    Confined t w w'' where
  rely u hu := (h.rely u hu).trans (h'.rely u hu)
  target o ho := h'.target o (h.target o ho)
  detached hd := h'.detached (h.detached hd)
  strays := h'.strays.trans h.strays
  log := h'.log.trans h.log

theorem Moved.of (hinv : SegmentInv w) (hown : Confined t w w') (hview : v.Of t w')
    (hsound : v.Sound t w') : Moved t w w' v :=
  ⟨hinv.confined hown hview hsound, hown, hview⟩

theorem Moved.same (hinv : SegmentInv w) (hv : v.Of t w) : Moved t w w v :=
  ⟨hinv, .refl t w, hv⟩

/-- Two moves of a handle. -/
theorem Moved.trans {w'' : Node} {v' : Local} (h : Moved t w w' v) (h' : Moved t w' w'' v') :
    Moved t w w'' v' where
  inv := h'.inv
  own := h.own.trans h'.own
  view := h'.view

/-- The handle's own object changes. -/
theorem Moved.alter {obj : Object} {f : Object → Object} (hinv : SegmentInv w) (hv : v.Of t w)
    (hobj : v.object = some obj) (hgrows : obj.GrowsTo (f obj)) (hfair : (f obj).Fair) :
    Moved t w (w.alter t f) { v with object := some (f obj) } := by
  have hsound := hinv.sound hv
  have hmine : w.objects t = some obj := hv.object.trans hobj
  have hself : (w.alter t f).objects t = some (f obj) := by
    show Function.update w.objects t ((w.objects t).map f) t = _
    rw [Function.update_self, hmine]
    rfl
  have hother : ∀ u, u ≠ t → (w.alter t f).objects u = w.objects u := fun u hu =>
    Function.update_of_ne hu _ _
  have hgrow : Growing w (w.alter t f) := by
    intro o obj' hobj'
    by_cases ho : o = t
    · subst ho
      obtain rfl := Option.some.inj (hmine.symm.trans hobj')
      exact ⟨f obj, hself, hgrows⟩
    · exact ⟨obj', (hother o ho).trans hobj', .refl obj'⟩
  have hown : Confined t w (w.alter t f) := { Confined.refl t w with
    rely := fun u hu => { SegmentRely.refl u w with
      object := hother u hu
      grows := hgrow } }
  refine .of hinv hown { hv with object := hself } { hsound.grows hgrow with
    object := fun obj' hobj' => ?_
    link := fun name hname => ?_ }
  · obtain rfl := Option.some.inj hobj'
    obtain ⟨-, horigin, htarget⟩ := hsound.object obj hobj
    refine ⟨hfair, horigin.trans ?_, htarget⟩
    rw [hgrows.made]
  · obtain ⟨hunlinked, obj', revision, payload, hobj', hmade⟩ := hsound.link name hname
    obtain rfl := Option.some.inj (hobj.symm.trans hobj')
    exact ⟨hunlinked, f obj, revision, payload, rfl, hgrows.made.trans hmade⟩

theorem begin_rule {a : Unit} (hinv : SegmentInv w) (hv : v.Of t w) (hobject : v.object = none)
    (h : Node.exec t call .begin ending w = some (a, w')) :
    Moved t w w' { v with life := .opening, origin := some call } := by
  have h := exec_of_proper rfl h
  have hsound := hinv.sound hv
  unfold Node.effect at h
  dsimp only at h
  split at h
  swap
  · contradiction
  obtain ⟨-, rfl⟩ := Prod.mk.inj (Option.some.inj h)
  have hown : Confined t w { w with
      life := Function.update w.life t .opening
      origin := Function.update w.origin t (some call) } := { Confined.refl t w with
    rely := fun u hu => { SegmentRely.refl u w with
      life := Function.update_of_ne hu _ _
      origin := Function.update_of_ne hu _ _ } }
  refine .of hinv hown
    { hv with life := Function.update_self .., origin := Function.update_self .. }
    { hsound with object := fun obj hobj => ?_ }
  have hobj : v.object = some obj := hobj
  rw [hobject] at hobj
  contradiction

theorem begin_life {a : Unit} (h : Node.exec t call .begin ending w = some (a, w')) :
    w.life t = .unborn := by
  have h := exec_of_proper rfl h
  unfold Node.effect at h
  dsimp only at h
  split at h
  · assumption
  · contradiction

theorem self_rule {segment : Segment}
    (h : Node.exec t call .self ending w = some (segment, w')) :
    w.life t = .held segment ∧ w' = w := by
  have h := exec_of_proper rfl h
  unfold Node.effect at h
  dsimp only at h
  split at h
  · rename_i held hlife
    obtain ⟨rfl, rfl⟩ := Prod.mk.inj (Option.some.inj h)
    exact ⟨hlife, rfl⟩
  · contradiction

theorem keep_rule {segment : Segment} {a : Unit} (hinv : SegmentInv w) (hv : v.Of t w)
    (h : Node.exec t call (.keep segment) ending w = some (a, w')) :
    Moved t w w' { v with life := .held segment } := by
  have h := exec_of_proper rfl h
  obtain ⟨-, rfl⟩ := Prod.mk.inj (Option.some.inj h)
  have hown : Confined t w { w with life := Function.update w.life t (.held segment) } := {
    Confined.refl t w with
    rely := fun u hu => { SegmentRely.refl u w with life := Function.update_of_ne hu _ _ } }
  have hsound := hinv.sound hv
  exact .of hinv hown { hv with life := Function.update_self .. }
    ⟨hsound.object, hsound.link, hsound.descriptor, hsound.mapping⟩

/-! ### Descriptors -/

/-- A descriptor the system has just given to a handle that had none. -/
theorem describe_own {fd o u : Nat} (hfree : w.descriptors fd = none) (hu : u ≠ t) :
    SegmentRely u w (w.describe t fd o) := { SegmentRely.refl u w with
  target := Function.update_of_ne hu _ _
  descriptors := fun fd' o' => by
    refine update_apart (P := fun d => d.holder = t) (fun d hd => ?_) (fun d hd => ?_) hu
    · rw [hfree] at hd
      contradiction
    · obtain rfl := Option.some.inj hd
      rfl }

theorem Local.Of.describe {fd o : Nat} (hv : v.Of t w) (hdescriptor : v.descriptor = none)
    (htarget : v.target = none) :
    Local.Of { v with descriptor := some (fd, o), target := some o } t (w.describe t fd o) := by
  refine { hv with target := ?_, descriptor := fun fd' o' => ?_ }
  · show Function.update w.target t (some ((w.target t).getD o)) t = _
    rw [Function.update_self, hv.target, htarget]
    rfl
  · refine (update_only fun k hk => ?_).trans ⟨?_, ?_⟩
    · have hk := (hv.descriptor k o').mp hk
      rw [hdescriptor] at hk
      contradiction
    · rintro ⟨rfl, hnew⟩
      obtain ⟨-, rfl⟩ := Descriptor.mk.inj hnew
      rfl
    · intro hnew
      obtain ⟨rfl, rfl⟩ := Prod.mk.inj (Option.some.inj hnew)
      exact ⟨rfl, rfl⟩

theorem shmOpen_rule {name : Name} {answer : Except Int Nat} (hinv : SegmentInv w) (hv : v.Of t w)
    (hdescriptor : v.descriptor = none) (htarget : v.target = none) (hrefused : v.refused = false)
    (h : Node.exec t call (.shmOpen name) ending w = some (answer, w')) :
    (∃ errno, answer = .error errno ∧ Moved t w w' v) ∨
    ∃ fd o, answer = .ok fd ∧ w.names name = some o ∧
      Moved t w w' { v with descriptor := some (fd, o), target := some o } := by
  have hproper : w.proper t (.shmOpen name) = true := by
    simp [Node.proper, hv.refused, hrefused]
  have h := exec_of_proper hproper h
  have hsound := hinv.sound hv
  cases ending with
  | error errno =>
    obtain ⟨rfl, rfl⟩ := Prod.mk.inj (Option.some.inj h)
    exact .inl ⟨errno, rfl, .same hinv hv⟩
  | ok fd =>
    unfold Node.effect at h
    dsimp only at h
    split at h
    · contradiction
    rename_i o hname
    split at h
    swap
    · contradiction
    rename_i hfree
    obtain ⟨rfl, rfl⟩ := Prod.mk.inj (Option.some.inj h)
    have hown : Confined t w (w.describe t fd o) := { Confined.refl t w with
      rely := fun u hu => describe_own hfree hu
      target := fun o' ho => by
        rw [hv.target, htarget] at ho
        contradiction }
    refine .inr ⟨fd, o, rfl, hname, .of hinv hown (hv.describe hdescriptor htarget) { hsound with
      object := fun obj hobj => ?_
      descriptor := fun fd' o' hfd => ?_
      mapping := fun base o' size writable hbase => ?_ }⟩
    · obtain ⟨-, -, hsome⟩ := hsound.object obj hobj
      rw [htarget] at hsome
      contradiction
    · obtain ⟨rfl, rfl⟩ := Prod.mk.inj (Option.some.inj hfd)
      obtain ⟨obj, -, -, hobj, -⟩ := hinv.names hname
      exact ⟨rfl, Option.isSome_iff_exists.mpr ⟨obj, hobj⟩⟩
    · obtain ⟨hsome, -⟩ := hsound.mapping base o' size writable hbase
      rw [htarget] at hsome
      contradiction

theorem shmOpenExclusive_rule {name : Name} {revision : NonZeroU64} {payload : Bytes}
    {answer : Except Int Nat} (hinv : SegmentInv w) (hv : v.Of t w)
    (hdescriptor : v.descriptor = none) (hlink : v.link = none) (hobject : v.object = none)
    (htarget : v.target = none) (hunlinked : v.unlinked = false)
    (hrefused : v.refused = false) (horigin : v.origin = some call)
    (hcall : call = .create name revision payload)
    (h : Node.exec t call (.shmOpenExclusive name) ending w = some (answer, w')) :
    (∃ errno, answer = .error errno ∧ Moved t w w' v) ∨
    ∃ fd, answer = .ok fd ∧ Moved t w w' { v with
      descriptor := some (fd, t), target := some t, link := some name,
      object := some ⟨call, 0, fun _ => 0⟩ } := by
  have hproper : w.proper t (.shmOpenExclusive name) = true := by
    simp [Node.proper, hv.refused, hrefused, hv.object, hobject]
  have h := exec_of_proper hproper h
  have hsound := hinv.sound hv
  cases ending with
  | error errno =>
    obtain ⟨rfl, rfl⟩ := Prod.mk.inj (Option.some.inj h)
    exact .inl ⟨errno, rfl, .same hinv hv⟩
  | ok fd =>
    unfold Node.effect at h
    dsimp only at h
    split at h
    swap
    · contradiction
    rename_i hfree
    obtain ⟨hname, hfd⟩ := hfree
    obtain ⟨rfl, rfl⟩ := Prod.mk.inj (Option.some.inj h)
    have hnone : w.objects t = none := hv.object.trans hobject
    have hgrow : Growing w { w.describe t fd t with
        objects := Function.update w.objects t (some ⟨call, 0, fun _ => 0⟩)
        names := Function.update w.names name (some t) } := by
      intro o obj hobj
      have ho : o ≠ t := by
        rintro rfl
        rw [hnone] at hobj
        contradiction
      exact ⟨obj, (Function.update_of_ne ho _ _).trans hobj, .refl obj⟩
    have hown : Confined t w { w.describe t fd t with
        objects := Function.update w.objects t (some ⟨call, 0, fun _ => 0⟩)
        names := Function.update w.names name (some t) } := { Confined.refl t w with
      rely := fun u hu => { describe_own hfd hu with
        object := Function.update_of_ne hu _ _
        names := fun name' => by
          refine update_apart (P := fun o => o = t) (fun o ho => ?_) (fun o ho => ?_) hu
          · rw [hname] at ho
            contradiction
          · exact (Option.some.inj ho).symm
        grows := hgrow }
      target := fun o' ho => by
        rw [hv.target, htarget] at ho
        contradiction }
    have hview : Local.Of { v with descriptor := some (fd, t), target := some t } t
        (w.describe t fd t) := hv.describe hdescriptor htarget
    refine .inr ⟨fd, rfl, .of hinv hown { hview with
      object := Function.update_self ..
      link := fun name' => ?_ } ⟨fun obj hobj => ?_, fun name' hname' => ?_, fun fd' o' hfd' => ?_,
        fun base o' size writable hbase => ?_⟩⟩
    · refine (update_only fun k hk => ?_).trans ⟨?_, ?_⟩
      · have hk := (hv.link k).mp hk
        rw [hlink] at hk
        contradiction
      · rintro ⟨rfl, -⟩
        rfl
      · intro hnew
        exact ⟨(Option.some.inj hnew).symm, rfl⟩
    · obtain rfl := Option.some.inj hobj
      refine ⟨⟨name, revision, payload, hcall, .inl rfl, fun hrevision => ?_⟩, horigin, rfl⟩
      exact absurd rfl hrevision
    · obtain rfl := Option.some.inj hname'
      exact ⟨hunlinked, _, revision, payload, rfl, hcall⟩
    · obtain ⟨rfl, rfl⟩ := Prod.mk.inj (Option.some.inj hfd')
      exact ⟨rfl, Option.isSome_iff_exists.mpr ⟨_, Function.update_self ..⟩⟩
    · obtain ⟨hsome, -⟩ := hsound.mapping base o' size writable hbase
      rw [htarget] at hsome
      contradiction

/-- An object that has no revision yet is sized. -/
theorem ftruncate_rule {fd size : Nat} {answer : Except Int Unit} {obj : Object}
    (hinv : SegmentInv w) (hv : v.Of t w) (hdescriptor : v.descriptor = some (fd, t))
    (hobject : v.object = some obj) (hrefused : v.refused = false)
    (hgrows : obj.GrowsTo (obj.truncate size)) (hfair : (obj.truncate size).Fair)
    (h : Node.exec t call (.ftruncate fd size) ending w = some (answer, w')) :
    (∃ errno, answer = .error errno ∧ Moved t w w' v) ∨
    answer = .ok () ∧ Moved t w w' { v with object := some (obj.truncate size) } := by
  have hfd : w.descriptors fd = some ⟨t, t⟩ := (hv.descriptor fd t).mpr hdescriptor
  have hproper : w.proper t (.ftruncate fd size) = true := by
    simp [Node.proper, hv.refused, hrefused, hfd]
  have h := exec_of_proper hproper h
  cases ending with
  | error errno =>
    obtain ⟨rfl, rfl⟩ := Prod.mk.inj (Option.some.inj h)
    exact .inl ⟨errno, rfl, .same hinv hv⟩
  | ok number =>
    unfold Node.effect at h
    dsimp only at h
    rw [hfd] at h
    obtain ⟨rfl, rfl⟩ := Prod.mk.inj (Option.some.inj h)
    exact .inr ⟨rfl, .alter hinv hv hobject hgrows hfair⟩

theorem posixFallocate_rule {fd size : Nat} {answer : Except Int Unit} {obj : Object}
    (hinv : SegmentInv w) (hv : v.Of t w) (hdescriptor : v.descriptor = some (fd, t))
    (hobject : v.object = some obj) (hrefused : v.refused = false)
    (hgrows : obj.GrowsTo (obj.allocate size)) (hfair : (obj.allocate size).Fair)
    (h : Node.exec t call (.posixFallocate fd size) ending w = some (answer, w')) :
    (∃ errno, answer = .error errno ∧ Moved t w w' v) ∨
    answer = .ok () ∧ Moved t w w' { v with object := some (obj.allocate size) } := by
  have hfd : w.descriptors fd = some ⟨t, t⟩ := (hv.descriptor fd t).mpr hdescriptor
  have hproper : w.proper t (.posixFallocate fd size) = true := by
    simp [Node.proper, hv.refused, hrefused, hfd]
  have h := exec_of_proper hproper h
  cases ending with
  | error errno =>
    obtain ⟨rfl, rfl⟩ := Prod.mk.inj (Option.some.inj h)
    exact .inl ⟨errno, rfl, .same hinv hv⟩
  | ok number =>
    unfold Node.effect at h
    dsimp only at h
    rw [hfd] at h
    obtain ⟨rfl, rfl⟩ := Prod.mk.inj (Option.some.inj h)
    exact .inr ⟨rfl, .alter hinv hv hobject hgrows hfair⟩

theorem fstat_rule {fd o : Nat} {answer : Except Int Nat} (hinv : SegmentInv w) (hv : v.Of t w)
    (hdescriptor : v.descriptor = some (fd, o)) (hrefused : v.refused = false)
    (h : Node.exec t call (.fstat fd) ending w = some (answer, w')) :
    Moved t w w' v ∧ ((∃ errno, answer = .error errno) ∨
      ∃ obj, answer = .ok obj.size ∧ w'.objects o = some obj) := by
  have hfd : w.descriptors fd = some ⟨t, o⟩ := (hv.descriptor fd o).mpr hdescriptor
  have hproper : w.proper t (.fstat fd) = true := by
    simp [Node.proper, Node.describes, hv.refused, hrefused, hfd]
  have h := exec_of_proper hproper h
  cases ending with
  | error errno =>
    obtain ⟨rfl, rfl⟩ := Prod.mk.inj (Option.some.inj h)
    exact ⟨.same hinv hv, .inl ⟨errno, rfl⟩⟩
  | ok number =>
    obtain ⟨-, hsome⟩ := (hinv.sound hv).descriptor fd o hdescriptor
    obtain ⟨obj, hobj⟩ := Option.isSome_iff_exists.mp hsome
    unfold Node.effect at h
    dsimp only at h
    rw [hfd, Option.bind_some, hobj] at h
    obtain ⟨rfl, rfl⟩ := Prod.mk.inj (Option.some.inj h)
    exact ⟨.same hinv hv, .inr ⟨obj, rfl, hobj⟩⟩

/-- A cleanup call the system refuses. -/
theorem Moved.refuse (hinv : SegmentInv w) (hv : v.Of t w) :
    Moved t w (w.refuse t) { v with refused := true } := by
  have hown : Confined t w (w.refuse t) := { Confined.refl t w with
    rely := fun u hu => { SegmentRely.refl u w with refused := Function.update_of_ne hu _ _ } }
  have hsound := hinv.sound hv
  exact .of hinv hown { hv with refused := Function.update_self .. }
    ⟨hsound.object, hsound.link, hsound.descriptor, hsound.mapping⟩

/-- Handle `t` without its descriptor. -/
theorem Moved.closed {fd o : Nat} (hinv : SegmentInv w) (hv : v.Of t w)
    (hdescriptor : v.descriptor = some (fd, o)) :
    Moved t w { w with descriptors := Function.update w.descriptors fd none }
      { v with descriptor := none } := by
  have hfd : w.descriptors fd = some ⟨t, o⟩ := (hv.descriptor fd o).mpr hdescriptor
  have hown : Confined t w { w with descriptors := Function.update w.descriptors fd none } := {
    Confined.refl t w with
    rely := fun u hu => { SegmentRely.refl u w with
      descriptors := fun fd' o' => by
        refine update_apart (P := fun d => d.holder = t) (fun d hd => ?_) nofun hu
        obtain rfl := Option.some.inj (hfd.symm.trans hd)
        rfl } }
  have hsound := hinv.sound hv
  refine .of hinv hown { hv with descriptor := fun fd' o' => ?_ }
    ⟨hsound.object, hsound.link, nofun, hsound.mapping⟩
  refine ⟨fun h => absurd h (update_gone fun k hk => ?_), nofun⟩
  have hk := (hv.descriptor k o').mp hk
  rw [hdescriptor] at hk
  exact (Prod.mk.inj (Option.some.inj hk)).1.symm

/-- The descriptor is gone even when the system reports an error. -/
theorem close_rule {fd o : Nat} {cleanup : Bool} {answer : Except Int Unit} (hinv : SegmentInv w)
    (hv : v.Of t w) (hdescriptor : v.descriptor = some (fd, o)) (hrefused : v.refused = false)
    (h : Node.exec t call (.close fd cleanup) ending w = some (answer, w')) :
    (∃ errno, answer = .error errno ∧
      Moved t w w' { v with descriptor := none, refused := cleanup }) ∨
    answer = .ok () ∧ Moved t w w' { v with descriptor := none } := by
  have hfd : w.descriptors fd = some ⟨t, o⟩ := (hv.descriptor fd o).mpr hdescriptor
  have hproper : w.proper t (.close fd cleanup) = true := by
    simp [Node.proper, Node.describes, hv.refused, hrefused, hfd]
  have h := exec_of_proper hproper h
  have hclosed := Moved.closed hinv hv hdescriptor
  cases ending with
  | error errno =>
    obtain ⟨rfl, rfl⟩ := Prod.mk.inj (Option.some.inj h)
    refine .inl ⟨errno, rfl, ?_⟩
    cases cleanup with
    | false =>
      have hsame : ({ v with descriptor := none, refused := false } : Local) =
          { v with descriptor := none } := by
        rw [hrefused]
      rw [hsame]
      exact hclosed
    | true => exact hclosed.trans (.refuse hclosed.inv hclosed.view)
  | ok number =>
    obtain ⟨rfl, rfl⟩ := Prod.mk.inj (Option.some.inj h)
    exact .inr ⟨rfl, hclosed⟩

/-! ### Mappings and names -/

theorem mmap_rule {fd o size : Nat} {writable : Bool} {answer : Except Int Nat}
    (hinv : SegmentInv w) (hv : v.Of t w) (hdescriptor : v.descriptor = some (fd, o))
    (hmapping : v.mapping = none) (hdetached : v.detached = false)
    (hwritable : writable = true → o = t) (hrefused : v.refused = false)
    (h : Node.exec t call (.mmap fd size writable) ending w = some (answer, w')) :
    (∃ errno, answer = .error errno ∧ Moved t w w' v) ∨
    ∃ base, answer = .ok base ∧
      Moved t w w' { v with mapping := some (base, o, size, writable) } := by
  have hfd : w.descriptors fd = some ⟨t, o⟩ := (hv.descriptor fd o).mpr hdescriptor
  have hproper : w.proper t (.mmap fd size writable) = true := by
    cases writable with
    | false => simp [Node.proper, hv.refused, hrefused, hfd]
    | true => simp [Node.proper, hv.refused, hrefused, hfd, hwritable]
  have h := exec_of_proper hproper h
  have hsound := hinv.sound hv
  cases ending with
  | error errno =>
    obtain ⟨rfl, rfl⟩ := Prod.mk.inj (Option.some.inj h)
    exact .inl ⟨errno, rfl, .same hinv hv⟩
  | ok base =>
    unfold Node.effect at h
    dsimp only at h
    rw [hfd] at h
    dsimp only at h
    split at h
    swap
    · contradiction
    rename_i hfree
    obtain ⟨rfl, rfl⟩ := Prod.mk.inj (Option.some.inj h)
    have hown : Confined t w { w with
        mappings := Function.update w.mappings base (some ⟨t, o, size, writable⟩) } := {
      Confined.refl t w with
      rely := fun u hu => { SegmentRely.refl u w with
        mappings := fun base' o' size' writable' => by
          refine update_apart (P := fun m => m.holder = t) (fun m hm => ?_) (fun m hm => ?_) hu
          · rw [hfree] at hm
            contradiction
          · obtain rfl := Option.some.inj hm
            rfl } }
    obtain ⟨htarget, hsome⟩ := hsound.descriptor fd o hdescriptor
    refine .inr ⟨base, rfl, .of hinv hown
      { hv with mapping := fun base' o' size' writable' => ?_ }
      ⟨hsound.object, hsound.link, hsound.descriptor, fun base' o' size' writable' hbase => ?_⟩⟩
    · refine (update_only fun k hk => ?_).trans ⟨?_, ?_⟩
      · have hk := (hv.mapping k o' size' writable').mp hk
        rw [hmapping] at hk
        contradiction
      · rintro ⟨rfl, hnew⟩
        obtain ⟨-, rfl, rfl, rfl⟩ := Mapping.mk.inj hnew
        rfl
      · intro hnew
        obtain ⟨rfl, rfl, rfl, rfl⟩ : base = base' ∧ o = o' ∧ size = size' ∧
          writable = writable' := by
          simpa using hnew
        exact ⟨rfl, rfl⟩
    · obtain ⟨rfl, rfl, rfl, rfl⟩ : base = base' ∧ o = o' ∧ size = size' ∧
        writable = writable' := by
        simpa using hbase
      exact ⟨htarget, hsome, hdetached, hwritable⟩

theorem munmap_rule {base o size : Nat} {writable : Bool} {answer : Except Int Unit}
    (hinv : SegmentInv w) (hv : v.Of t w) (hmapping : v.mapping = some (base, o, size, writable))
    (hrefused : v.refused = false)
    (h : Node.exec t call (.munmap base size) ending w = some (answer, w')) :
    (∃ errno, answer = .error errno ∧ Moved t w w' { v with refused := true }) ∨
    answer = .ok () ∧ Moved t w w' { v with mapping := none, detached := true } := by
  have hbase : w.mappings base = some ⟨t, o, size, writable⟩ :=
    (hv.mapping base o size writable).mpr hmapping
  have hsound := hinv.sound hv
  obtain ⟨-, -, hdetached, -⟩ := hsound.mapping base o size writable hmapping
  have hproper : w.proper t (.munmap base size) = true := by
    simp [Node.proper, hv.refused, hrefused, hv.detached, hdetached, hbase]
  have h := exec_of_proper hproper h
  cases ending with
  | error errno =>
    obtain ⟨rfl, rfl⟩ := Prod.mk.inj (Option.some.inj h)
    exact .inl ⟨errno, rfl, .refuse hinv hv⟩
  | ok number =>
    obtain ⟨rfl, rfl⟩ := Prod.mk.inj (Option.some.inj h)
    have hown : Confined t w { w with
        mappings := Function.update w.mappings base none
        detached := Function.update w.detached t true } := { Confined.refl t w with
      rely := fun u hu => { SegmentRely.refl u w with
        detached := Function.update_of_ne hu _ _
        mappings := fun base' o' size' writable' => by
          refine update_apart (P := fun m => m.holder = t) (fun m hm => ?_) nofun hu
          obtain rfl := Option.some.inj (hbase.symm.trans hm)
          rfl }
      detached := fun _ => Function.update_self .. }
    refine .inr ⟨rfl, .of hinv hown { hv with
      detached := Function.update_self ..
      mapping := fun base' o' size' writable' => ?_ }
      ⟨hsound.object, hsound.link, hsound.descriptor, nofun⟩⟩
    refine ⟨fun h => absurd h (update_gone fun k hk => ?_), nofun⟩
    have hk := (hv.mapping k o' size' writable').mp hk
    rw [hmapping] at hk
    exact (Prod.mk.inj (Option.some.inj hk)).1.symm

theorem shmUnlink_rule {name : Name} {answer : Except Int Unit} (hinv : SegmentInv w)
    (hv : v.Of t w) (hlink : v.link = some name) (hrefused : v.refused = false)
    (h : Node.exec t call (.shmUnlink name) ending w = some (answer, w')) :
    (∃ errno, answer = .error errno ∧ Moved t w w' { v with refused := true }) ∨
    answer = .ok () ∧ Moved t w w' { v with link := none, unlinked := true } := by
  have hname : w.names name = some t := (hv.link name).mpr hlink
  have hsound := hinv.sound hv
  obtain ⟨hunlinked, -⟩ := hsound.link name hlink
  have hproper : w.proper t (.shmUnlink name) = true := by
    simp [Node.proper, hv.refused, hrefused, hv.unlinked, hunlinked, hname]
  have h := exec_of_proper hproper h
  cases ending with
  | error errno =>
    obtain ⟨rfl, rfl⟩ := Prod.mk.inj (Option.some.inj h)
    exact .inl ⟨errno, rfl, .refuse hinv hv⟩
  | ok number =>
    unfold Node.effect at h
    dsimp only at h
    rw [if_neg (by simp [hname])] at h
    obtain ⟨rfl, rfl⟩ := Prod.mk.inj (Option.some.inj h)
    have hown : Confined t w { w with
        names := Function.update w.names name none
        unlinked := Function.update w.unlinked t true } := { Confined.refl t w with
      rely := fun u hu => { SegmentRely.refl u w with
        unlinked := Function.update_of_ne hu _ _
        names := fun name' => by
          refine update_apart (P := fun o => o = t) (fun o ho => ?_) nofun hu
          exact (Option.some.inj (hname.symm.trans ho)).symm } }
    refine .inr ⟨rfl, .of hinv hown { hv with
      unlinked := Function.update_self ..
      link := fun name' => ?_ } ⟨hsound.object, nofun, hsound.descriptor, hsound.mapping⟩⟩
    refine ⟨fun h => absurd h (update_gone fun k hk => ?_), nofun⟩
    have hk := (hv.link k).mp hk
    rw [hlink] at hk
    exact (Option.some.inj hk).symm

/-! ### Mapped memory -/

structure MapsOwn (v : Local) (t base size : Nat) (obj : Object) : Prop where
  mapping : v.mapping = some (base, t, size, true)
  object : v.object = some obj
  size : obj.size = size

theorem MapsOwn.write {base size offset : Nat} {obj : Object} {data : Bytes}
    (hown : MapsOwn v t base size obj) (hv : v.Of t w) :
    w.writeAt base offset data = w.alter t fun obj => obj.write offset data := by
  have hbase : w.mappings base = some ⟨t, t, size, true⟩ :=
    (hv.mapping base t size true).mpr hown.mapping
  unfold Node.writeAt
  rw [hbase]

theorem backs_of {base offset len : Nat} {writing : Bool} {m : Mapping} {obj : Object}
    (hbase : w.mappings base = some m) (hholder : m.holder = t)
    (hwritable : writing = true → m.writable = true) (hobj : w.objects m.object = some obj)
    (hsize : offset + len ≤ m.size) (hfits : offset + len ≤ obj.size) :
    w.backs t base offset len writing = true := by
  unfold Node.backs
  simp only [hbase, hobj, Option.any_some, Bool.and_eq_true, beq_iff_eq, decide_eq_true_eq]
  refine ⟨⟨⟨hholder, ?_⟩, hsize⟩, hfits⟩
  cases writing with
  | false => simp
  | true => simp [hwritable]

theorem MapsOwn.backs {base size offset len : Nat} {obj : Object}
    (hown : MapsOwn v t base size obj) (hv : v.Of t w) (hfits : offset + len ≤ size) :
    w.backs t base offset len true = true := by
  have hbase : w.mappings base = some ⟨t, t, size, true⟩ :=
    (hv.mapping base t size true).mpr hown.mapping
  exact backs_of hbase rfl (fun _ => rfl) (hv.object.trans hown.object) hfits
    (hfits.trans_eq hown.size.symm)

/-- After a write through it the mapping is still one of the handle's object. -/
theorem MapsOwn.stored {base size offset : Nat} {obj : Object} {data : Bytes}
    (hown : MapsOwn v t base size obj) :
    MapsOwn { v with object := some (obj.write offset data) } t base size (obj.write offset data) :=
  ⟨hown.mapping, rfl, hown.size⟩

theorem store_rule {base size offset : Nat} {byte : UInt8} {obj : Object} {a : Unit}
    (hinv : SegmentInv w) (hv : v.Of t w) (hown : MapsOwn v t base size obj) (hfits : offset < size)
    (hgrows : obj.GrowsTo (obj.write offset [byte])) (hfair : (obj.write offset [byte]).Fair)
    (h : Node.exec t call (.store base offset byte) ending w = some (a, w')) :
    Moved t w w' { v with object := some (obj.write offset [byte]) } := by
  have hproper : w.proper t (.store base offset byte) = true := hown.backs hv hfits
  have h := exec_of_proper hproper h
  obtain ⟨-, rfl⟩ := Prod.mk.inj (Option.some.inj h)
  rw [hown.write hv]
  exact .alter hinv hv hown.object hgrows hfair

theorem storeWord_rule {base size offset value : Nat} {obj : Object} {a : Unit}
    (hinv : SegmentInv w) (hv : v.Of t w) (hown : MapsOwn v t base size obj)
    (hfits : offset + 8 ≤ size) (hgrows : obj.GrowsTo (obj.write offset (toLE 8 value)))
    (hfair : (obj.write offset (toLE 8 value)).Fair)
    (h : Node.exec t call (.storeWord base offset value) ending w = some (a, w')) :
    Moved t w w' { v with object := some (obj.write offset (toLE 8 value)) } := by
  have hproper : w.proper t (.storeWord base offset value) = true := hown.backs hv hfits
  have h := exec_of_proper hproper h
  obtain ⟨-, rfl⟩ := Prod.mk.inj (Option.some.inj h)
  rw [hown.write hv]
  exact .alter hinv hv hown.object hgrows hfair

/-- Loads within a mapping answer the bytes of its object. -/
theorem load_rule {base o size offset : Nat} {writable : Bool} {obj : Object} {byte : UInt8}
    (hinv : SegmentInv w) (hv : v.Of t w) (hmapping : v.mapping = some (base, o, size, writable))
    (hobj : w.objects o = some obj) (hsize : offset < size) (hfits : offset < obj.size)
    (h : Node.exec t call (.load base offset) ending w = some (byte, w')) :
    byte = obj.bytes offset ∧ Moved t w w' v := by
  have hbase : w.mappings base = some ⟨t, o, size, writable⟩ :=
    (hv.mapping base o size writable).mpr hmapping
  have hproper : w.proper t (.load base offset) = true := backs_of hbase rfl nofun hobj hsize hfits
  have h := exec_of_proper hproper h
  obtain ⟨hbyte, rfl⟩ := Prod.mk.inj (Option.some.inj h)
  refine ⟨?_, .same hinv hv⟩
  have hread : w.readAt base offset 1 = obj.bytes.read offset 1 := by
    unfold Node.readAt
    rw [hbase, Option.bind_some, hobj]
  rw [← hbyte, hread]
  rfl

theorem loadWord_rule {base o size offset value : Nat} {writable : Bool} {obj : Object}
    (hinv : SegmentInv w) (hv : v.Of t w) (hmapping : v.mapping = some (base, o, size, writable))
    (hobj : w.objects o = some obj) (hsize : offset + 8 ≤ size) (hfits : offset + 8 ≤ obj.size)
    (h : Node.exec t call (.loadWord base offset) ending w = some (value, w')) :
    value = ofLE (obj.bytes.read offset 8) ∧ Moved t w w' v := by
  have hbase : w.mappings base = some ⟨t, o, size, writable⟩ :=
    (hv.mapping base o size writable).mpr hmapping
  have hproper : w.proper t (.loadWord base offset) = true :=
    backs_of hbase rfl nofun hobj hsize hfits
  have h := exec_of_proper hproper h
  obtain ⟨hvalue, rfl⟩ := Prod.mk.inj (Option.some.inj h)
  refine ⟨?_, .same hinv hv⟩
  have hread : w.readAt base offset 8 = obj.bytes.read offset 8 := by
    unfold Node.readAt
    rw [hbase, Option.bind_some, hobj]
  rw [← hvalue, hread]

end Commands

end MpiRma
