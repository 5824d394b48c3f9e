/-
  MpiRma/Release.lean
  ===================
  **Using and releasing a segment.**  The calls on a handle that is held: `payload` reads what
  is mapped, and `detach`, `retire` and `drop` hand back the mapping and the name.  The fields
  say at every return what is left to hand back, so nothing is handed back twice, and nothing
  is tried again once the system has refused it.
-/
import MpiRma.Opening

namespace MpiRma

section Programs

variable {t : Nat} {call : SegmentRequest} {w w' : Node} {v : Local} {s : Segment}

/-! ### Calls on a held handle -/

/-- A handle starts with nothing. -/
theorem wp_begin {k : Unit → Program OsCall OsCall.Answer SegmentOutcome} (hrest : AtRest t w)
    (hk : ∀ w', (Local.creating call).Of t w' →
      (k ()).wp (segmentContract t call) (segmentReturns t call) w') :
    (Program.op .begin k).wp (segmentContract t call) (segmentReturns t call) w := by
  apply segmentContract_intro
  intro w₁ hrely hinv ending (a : Unit) w₂ hexec
  have hunborn := hrest.stable hrely
  unfold AtRest at hunborn
  rw [begin_life hexec] at hunborn
  have hmoved := begin_rule hinv hunborn rfl hexec
  exact ⟨_, hmoved, hk w₂ hmoved.view⟩

/-- A call on a handle starts with its fields. -/
theorem wp_self {k : Segment → Program OsCall OsCall.Answer SegmentOutcome} (hrest : AtRest t w)
    (hk : ∀ s v w', Handle t s v w' → v.life = .held s →
      (k s).wp (segmentContract t call) (segmentReturns t call) w') :
    (Program.op .self k).wp (segmentContract t call) (segmentReturns t call) w := by
  apply segmentContract_intro
  intro w₁ hrely hinv ending (s : Segment) w₂ hexec
  obtain ⟨hlife, rfl⟩ := self_rule hexec
  have hheld := hrest.stable hrely
  unfold AtRest at hheld
  rw [hlife] at hheld
  obtain ⟨v, h⟩ := hheld
  exact ⟨v, .same hinv h.view, hk s v w₂ h (h.view.life.symm.trans hlife)⟩

def SegmentOutcome.keeps : SegmentOutcome → Bool
  | .payload _ => true
  | .detached _ => true
  | .retired _ => true
  | .panicked => true
  | _ => false

theorem returns_kept {outcome : SegmentOutcome} (hkeeps : outcome.keeps = true)
    (h : Handle t s v w) (hlife : v.life = .held s)
    (hlogged : ∀ w₁, SegmentRely t w w₁ → Logged w₁ t call outcome) :
    segmentReturns t call outcome w := by
  apply returns_segment
  intro w₁ hrely _
  have h₁ := h.rely hrely
  have hsame : (Node.finish t call outcome w₁).life = w₁.life := by
    cases outcome with
    | payload | detached | retired | panicked => rfl
    | _ => cases hkeeps
  refine ⟨?_, hlogged w₁ hrely⟩
  unfold AtRest
  rw [hsame, h₁.view.life, hlife]
  exact ⟨v, h₁.lives (.refl w₁) { h₁.view with life := (congrFun hsame t).trans h₁.view.life }⟩

/-- The fields a call leaves are written back when it returns. -/
theorem wp_keep {r : Except Halt Unit × Segment} {done : Except IoError Unit → SegmentOutcome}
    (hdone : done = .detached ∨ done = .retired) (hcall : call ≠ .payload) (h : Handle t r.2 v w) :
    (Program.op (.keep r.2) fun _ => .ret (.of done r.1)).wp (segmentContract t call)
      (segmentReturns t call) w := by
  apply segmentContract_intro
  intro w₁ hrely hinv ending a w₂ hexec
  have h₁ := h.rely hrely
  have hmoved := keep_rule hinv h₁.view hexec
  refine ⟨_, hmoved, ?_⟩
  have h₂ : Handle t r.2 { v with life := .held r.2 } w₂ :=
    h₁.lives hmoved.own.objects hmoved.view
  obtain ⟨result, s'⟩ := r
  cases result with
  | ok a =>
    rcases hdone with rfl | rfl
    · exact returns_kept rfl h₂ rfl fun _ _ => logged_silent rfl
    · exact returns_kept rfl h₂ rfl fun _ _ => logged_silent rfl
  | error halt =>
    cases halt with
    | error e =>
      rcases hdone with rfl | rfl
      · exact returns_kept rfl h₂ rfl fun _ _ => logged_silent rfl
      · exact returns_kept rfl h₂ rfl fun _ _ => logged_silent rfl
    | abort => exact returns_aborted
    | panic => exact returns_kept rfl h₂ rfl fun _ _ => logged_panicked hcall

/-! ### Payload -/

abbrev reading (t : Nat) (r : Except Halt Bytes × Segment) (w : Node) : Prop :=
  segmentReturns t .payload (.of (fun bytes => .payload (bytes.toOption.getD [])) r.1) w

/-- **The bytes a handle reads are those its segment was created with.** -/
theorem wp_payload (h : Handle t s v w) (hlife : v.life = .held s) :
    (Segment.payload s).wp (segmentContract t .payload) (reading t) w := by
  obtain ⟨base, size, name, owner, failed⟩ := s
  cases base with
  | none =>
    exact returns_kept rfl h hlife fun w₁ hrely => (hrely.view v h.view).detached.trans
      (h.detached rfl)
  | some base =>
    obtain ⟨o, htarget, ⟨name', revision, payload, obj, hby, hsize⟩, writable, hmapping⟩ :=
      h.mapping
    have hsize : size = Segment.HEADER + payload.length := hsize
    have hlength : size - Segment.HEADER = payload.length := by omega
    show Program.wp _ ((if size < Segment.HEADER then Code.throw .panic
      else Segment.loadBytes base Segment.HEADER (size - Segment.HEADER) :
        SegmentCode Segment Bytes)
      _) _ _
    refine wp_if (fun hshort => absurd hshort (by omega)) fun _ => ?_
    rw [hlength, ← Code.bind_pure (Segment.loadBytes _ _ _)]
    refine wp_loadBytes h.view hmapping hby (hby.published.size.trans hsize.symm) (by omega)
      fun w₁ hv₁ hby₁ => ?_
    rw [hby.published.payload]
    have h₁ : Handle t ⟨some base, size, name, owner, failed⟩ v w₁ :=
      ⟨hv₁, h.refused, h.detached, h.descriptor,
        ⟨o, htarget, ⟨name', revision, payload, obj, hby₁, hsize⟩, writable, hmapping⟩, h.link⟩
    refine returns_kept rfl h₁ hlife fun w₂ hrely₂ => ?_
    exact ⟨o, obj, name', revision, (hrely₂.view v hv₁).target.trans htarget,
      hby₁.grows hrely₂.grows⟩

/-! ### Handing back -/

variable {α : Type} {Q : Except Halt α × Segment → Node → Prop}

/-- **A mapping is handed back once, or kept with the errno.** -/
theorem wp_detach (h : Handle t s v w) :
    (Segment.detach s).wp (segmentContract t call) (fun r w' => (∃ v', Handle t r.2 v' w') ∧
      (r.1 = .ok () → r.2.failed = none ∧ r.2.base = none ∧ r.2.owner = s.owner)) w := by
  obtain ⟨base, size, name, owner, failed⟩ := s
  cases failed with
  | some failure => exact ⟨⟨v, h⟩, nofun⟩
  | none =>
    cases base with
    | none => exact ⟨⟨v, h⟩, fun _ => ⟨rfl, rfl, rfl⟩⟩
    | some base =>
      obtain ⟨o, htarget, hpublished, writable, hmapping⟩ := h.mapping
      apply segmentContract_intro
      intro w₁ hrely hinv ending unmapped w₂ hexec
      have hpublished₂ : ∀ {v'}, Moved t w₁ w₂ v' → PublishedAt w₂ o size := fun hmoved =>
        (hpublished.grows hrely.grows).grows hmoved.own.objects
      rcases munmap_rule hinv (hrely.view v h.view) hmapping h.refused hexec with
        ⟨errno, rfl, hmoved⟩ | ⟨rfl, hmoved⟩
      · exact ⟨_, hmoved, ⟨_, hmoved.view, rfl, h.detached, h.descriptor,
          ⟨o, htarget, hpublished₂ hmoved, writable, hmapping⟩, h.link⟩, nofun⟩
      · exact ⟨_, hmoved, ⟨_, hmoved.view, h.refused, fun _ => rfl, h.descriptor,
          ⟨o, htarget, hpublished₂ hmoved, writable, rfl⟩, h.link⟩, fun _ => ⟨rfl, rfl, rfl⟩⟩

/-- **A name is unlinked once, by its owner only.** -/
theorem wp_retire (h : Handle t s v w) :
    (Segment.retire s).wp (segmentContract t call) (fun r w' => ∃ v', Handle t r.2 v' w') w := by
  obtain ⟨base, size, name, owner, failed⟩ := s
  cases failed with
  | some failure => exact ⟨v, h⟩
  | none =>
    cases owner with
    | false => exact ⟨v, h⟩
    | true =>
      refine (Code.wp_bind _ _ _ _ Segment.detach _).mpr ?_
      refine Program.wp_mono (segmentDiscipline.contract_monotone _ _ _) ?_ (wp_detach h)
      rintro ⟨result, s'⟩ w₁ ⟨⟨v', h'⟩, hdone⟩
      cases result with
      | error halt => exact ⟨v', h'⟩
      | ok a =>
        obtain ⟨hfailed, hbase, howner⟩ := hdone rfl
        obtain ⟨base', size', name', owner', failed'⟩ := s'
        obtain rfl : failed' = none := hfailed
        obtain rfl : owner' = true := howner
        obtain ⟨o, htarget, hpublished, hmapping⟩ := h'.mapping
        apply segmentContract_intro
        intro w₂ hrely hinv ending unlinked w₃ hexec
        have hpublished₃ : ∀ {v'}, Moved t w₂ w₃ v' → PublishedAt w₃ o size' := fun hmoved =>
          (hpublished.grows hrely.grows).grows hmoved.own.objects
        rcases shmUnlink_rule hinv (hrely.view v' h'.view) h'.link h'.refused hexec with
          ⟨errno, rfl, hmoved⟩ | ⟨rfl, hmoved⟩
        · exact ⟨_, hmoved, _, hmoved.view, rfl, h'.detached, h'.descriptor,
            ⟨o, htarget, hpublished₃ hmoved, hmapping⟩, h'.link⟩
        · exact ⟨_, hmoved, _, hmoved.view, h'.refused, h'.detached, h'.descriptor,
            ⟨o, htarget, hpublished₃ hmoved, hmapping⟩, rfl⟩

/-! ### Drop -/

abbrev dropping (t : Nat) (r : Except Halt Unit × Segment) (w : Node) : Prop :=
  segmentReturns t .drop (.of (fun _ => .dropped) r.1) w

theorem returns_dropped (hv : v.Of t w) (hempty : v.Empty) : segmentReturns t call .dropped w := by
  apply returns_segment
  intro w₁ hrely _
  have hv₁ := hrely.view v hv
  have hlife : (Node.finish t call .dropped w₁).life t = .dropped := Function.update_self ..
  refine ⟨?_, logged_silent rfl⟩
  unfold AtRest
  rw [hlife]
  exact ⟨{ v with life := .dropped }, { hv₁ with life := hlife }, hempty.descriptor, hempty.mapping,
    hempty.link⟩

theorem wp_dropName (hv : v.Of t w) (hdescriptor : v.descriptor = none)
    (hmapping : v.mapping = none)
    (hrefused : v.refused = false) (hlink : v.link = if s.owner then some s.name else none) :
    (Segment.dropName s).wp (segmentContract t .drop) (dropping t) w := by
  obtain ⟨base, size, name, owner, failed⟩ := s
  cases owner with
  | false => exact returns_dropped hv ⟨hdescriptor, hmapping, hlink⟩
  | true =>
    refine wp_shmUnlinkOrAbort hv hlink hrefused (fun _ => returns_aborted) fun w' hv' => ?_
    exact returns_dropped hv' ⟨hdescriptor, hmapping, rfl⟩

/-- **What is left of a handle goes with it.** -/
theorem wp_drop (h : Handle t s v w) :
    (Segment.drop s).wp (segmentContract t .drop) (dropping t) w := by
  obtain ⟨base, size, name, owner, failed⟩ := s
  obtain ⟨o, -, -, writable, hmapping⟩ := h.mapping
  cases failed with
  | some failure => exact returns_aborted
  | none =>
    show Program.wp _ ((Segment.dropMapping >>= fun _ => Segment.dropName) _) _ _
    cases base with
    | none => exact wp_dropName h.view h.descriptor hmapping h.refused h.link
    | some base =>
      show Program.wp _ (((Segment.munmapOrAbort base size >>= fun _ =>
        Code.set ⟨none, size, name, owner, none⟩) >>= fun _ => Segment.dropName) _) _ _
      rw [Code.bind_assoc]
      refine wp_munmapOrAbort h.view hmapping h.refused (fun _ => returns_aborted) fun w' hv' => ?_
      exact wp_dropName hv' h.descriptor rfl h.refused h.link

/-! ### Every call -/

theorem segment_verified : segmentDiscipline.Verified segmentMachine := by
  intro t call w hinv hrest
  cases call with
  | create name revision payload =>
    refine wp_begin hrest fun w' hv => ?_
    exact (Program.wp_bind _ _ _ _ _).mpr (wp_create rfl hv)
  | «open» name revision length =>
    refine wp_begin hrest fun w' hv => ?_
    exact (Program.wp_bind _ _ _ _ _).mpr (wp_open rfl hv)
  | payload =>
    refine wp_self hrest fun s v w' h hlife => ?_
    exact (Program.wp_bind _ _ _ _ _).mpr (wp_payload h hlife)
  | detach =>
    refine wp_self hrest fun s v w' h _ => (Program.wp_bind _ _ _ _ _).mpr ?_
    refine Program.wp_mono (segmentDiscipline.contract_monotone _ _ _) ?_ (wp_detach h)
    rintro r w₁ ⟨⟨v', h'⟩, -⟩
    exact wp_keep (.inl rfl) nofun h'
  | retire =>
    refine wp_self hrest fun s v w' h _ => (Program.wp_bind _ _ _ _ _).mpr ?_
    refine Program.wp_mono (segmentDiscipline.contract_monotone _ _ _) ?_ (wp_retire h)
    rintro r w₁ ⟨v', h'⟩
    exact wp_keep (.inr rfl) nofun h'
  | drop =>
    refine wp_self hrest fun s v w' h _ => ?_
    exact (Program.wp_bind _ _ _ _ _).mpr (wp_drop h)

end Programs

end MpiRma
