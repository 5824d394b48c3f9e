/-
  MpiRma/Opening.lean
  ===================
  **Opening a segment and reading it.**  A reader follows a name to an object that may still
  be unsized, half written or rolled back.  The size it finds is the size of a whole object
  only, the revision it loads is there only once the rest is, and what it has mapped by then
  does not change any more, whatever becomes of the name.
-/
import MpiRma.Publication

namespace MpiRma

/-! ### What a reader has found -/

theorem NonZeroU64.ext {a b : NonZeroU64} (h : a.get = b.get) : a = b := by
  cases a
  cases b
  simpa using h

def MadeBy (w : Node) (o : Nat) (name : Name) (revision : NonZeroU64) (payload : Bytes) : Prop :=
  ∃ obj, w.objects o = some obj ∧ obj.made = .create name revision payload

def SizedBy (w : Node) (o : Nat) (name : Name) (revision : NonZeroU64) (payload : Bytes) : Prop :=
  ∃ obj, w.objects o = some obj ∧ obj.made = .create name revision payload ∧
    obj.size = Segment.HEADER + payload.length

section Found

variable {w w' : Node} {o : Nat} {name : Name} {revision : NonZeroU64} {payload : Bytes}
  {obj : Object}

theorem MadeBy.grows (h : MadeBy w o name revision payload) (hgrow : Growing w w') :
    MadeBy w' o name revision payload := by
  obtain ⟨obj, hobj, hmade⟩ := h
  obtain ⟨obj', hobj', hgrows⟩ := hgrow o obj hobj
  exact ⟨obj', hobj', hgrows.made.trans hmade⟩

theorem SizedBy.grows (h : SizedBy w o name revision payload) (hgrow : Growing w w') :
    SizedBy w' o name revision payload := by
  obtain ⟨obj, hobj, hmade, hsize⟩ := h
  obtain ⟨obj', hobj', hgrows⟩ := hgrow o obj hobj
  have hheader : 0 < Segment.HEADER := by decide
  exact ⟨obj', hobj', hgrows.made.trans hmade, (hgrows.size (by omega)).trans hsize⟩

/-- A name leads to an object made under it. -/
theorem SegmentInv.named (h : SegmentInv w) (hname : w.names name = some o) :
    ∃ revision payload, MadeBy w o name revision payload := by
  obtain ⟨obj, revision, payload, hobj, hmade⟩ := h.names hname
  exact ⟨revision, payload, obj, hobj, hmade⟩

/-- The only size other than zero is the whole size. -/
theorem SegmentInv.sized (h : SegmentInv w) (hmade : MadeBy w o name revision payload)
    (hobj : w.objects o = some obj) (hsize : obj.size ≠ 0) :
    SizedBy w o name revision payload ∧ obj.size = Segment.HEADER + payload.length := by
  obtain ⟨obj', hobj', hmade'⟩ := hmade
  obtain rfl := Option.some.inj (hobj.symm.trans hobj')
  obtain ⟨⟨name', revision', payload', hmade'', hsizes, -⟩, -⟩ := h.objects hobj
  obtain ⟨-, -, rfl⟩ := SegmentRequest.create.inj (hmade'.symm.trans hmade'')
  have hwhole := hsizes.resolve_left hsize
  exact ⟨⟨obj, hobj, hmade', hwhole⟩, hwhole⟩

/-- An object with a revision is published. -/
theorem SegmentInv.published (h : SegmentInv w) (hmade : MadeBy w o name revision payload)
    (hobj : w.objects o = some obj) (hrevision : obj.revision ≠ 0) :
    PublishedBy w o name revision payload obj := by
  obtain ⟨obj', hobj', hmade'⟩ := hmade
  obtain rfl := Option.some.inj (hobj.symm.trans hobj')
  obtain ⟨⟨name', revision', payload', hmade'', -, hpublished⟩, -⟩ := h.objects hobj
  obtain ⟨rfl, rfl, rfl⟩ := SegmentRequest.create.inj (hmade'.symm.trans hmade'')
  exact ⟨hobj, hmade', hpublished hrevision⟩

end Found

section Programs

variable {t : Nat} {call : SegmentRequest} {w w' : Node} {v : Local} {σ α β : Type} {self : σ}
  {Q : Except Halt α × σ → Node → Prop}

/-! ### Loads -/

/-- Loading bytes of a published segment. -/
theorem wp_loadBytes {base o size offset len : Nat} {writable : Bool} {name : Name}
    {revision : NonZeroU64} {payload : Bytes} {obj : Object} {f : Bytes → SegmentCode σ α}
    (hv : v.Of t w) (hmapping : v.mapping = some (base, o, size, writable))
    (hobj : PublishedBy w o name revision payload obj) (hsize : obj.size = size)
    (hfits : offset + len ≤ size)
    (hf : ∀ w', v.Of t w' → PublishedBy w' o name revision payload obj →
      (f (obj.bytes.read offset len) self).wp (segmentContract t call) Q w') :
    ((Segment.loadBytes base offset len >>= f) self).wp (segmentContract t call) Q w := by
  induction len generalizing offset f w with
  | zero => exact hf w hv hobj
  | succ len ih =>
    apply segmentContract_intro
    intro w₁ hrely hinv ending (byte : UInt8) w₂ hexec
    have hobj₁ := hobj.grows hrely.grows
    obtain ⟨hbyte, hmoved⟩ := load_rule hinv (hrely.view v hv) hmapping hobj₁.object (by omega)
      (by omega) hexec
    refine ⟨_, hmoved, ?_⟩
    show Program.wp _ (((Segment.loadBytes base (offset + 1) len >>= fun rest =>
      pure (byte :: rest))
      >>= f) self) _ _
    rw [Code.bind_assoc]
    refine ih hmoved.view (hobj₁.grows hmoved.own.objects) (by omega) fun w₃ hv₃ hobj₃ => ?_
    have hstep : obj.bytes.read offset (len + 1) = byte :: obj.bytes.read (offset + 1) len := by
      rw [Memory.read_succ, hbyte]
    rw [hstep] at hf
    exact hf w₃ hv₃ hobj₃

/-! ### Open -/

abbrev opening (t : Nat) (call : SegmentRequest) (r : Except Halt Segment × Unit) (w : Node) :
    Prop :=
  segmentReturns t call (.of .opened r.1) w

theorem wp_openExit {fd o : Nat} {e : IoError} (hv : v.Of t w)
    (hdescriptor : v.descriptor = some (fd, o)) (hmapping : v.mapping = none)
    (hlink : v.link = none) (hrefused : v.refused = false) :
    ((Segment.openExit fd e : SegmentCode Unit Segment) ()).wp (segmentContract t call)
      (opening t call) w := by
  refine wp_closeOrAbort hv hdescriptor hrefused (fun _ => returns_aborted) fun w' hv' => ?_
  exact returns_failed (.inr rfl) hv' ⟨rfl, hmapping, hlink⟩

theorem wp_openUnmap {base o size : Nat} {writable : Bool} {e : IoError} (hv : v.Of t w)
    (hdescriptor : v.descriptor = none) (hmapping : v.mapping = some (base, o, size, writable))
    (hlink : v.link = none) (hrefused : v.refused = false) :
    ((Segment.openUnmap base size e : SegmentCode Unit Segment) ()).wp (segmentContract t call)
      (opening t call) w := by
  refine wp_munmapOrAbort hv hmapping hrefused (fun _ => returns_aborted) fun w' hv' => ?_
  exact returns_failed (.inr rfl) hv' ⟨hdescriptor, rfl, hlink⟩

def Local.mapped (call : SegmentRequest) (o base size : Nat) : Local :=
  { Local.creating call with
    target := some o
    mapping := some (base, o, size, false) }

/-- **The loaded revision tells a published segment.** -/
theorem wp_confirm {name : Name} {revision revision' : NonZeroU64} {payload : Bytes}
    {o base size length : Nat} (hcall : call = .open name revision length)
    (hv : (Local.mapped call o base size).Of t w) (hsized : SizedBy w o name revision' payload)
    (hsize : size = Segment.HEADER + length) (hlength : payload.length = length) :
    (Segment.confirm name revision base size length ()).wp (segmentContract t call)
      (opening t call) w := by
  have hheader : Segment.HEADER = 64 := rfl
  refine wp_perform fun w₁ hrely hinv ending (published : Nat) w₂ hexec => ?_
  obtain ⟨obj, hobj, hmade, hwhole⟩ := hsized.grows hrely.grows
  obtain ⟨hpublished, hmoved⟩ :=
    loadWord_rule hinv (hrely.view _ hv) rfl hobj (by omega) (by omega) hexec
  refine ⟨_, hmoved, ?_⟩
  refine wp_if (fun _ => wp_openUnmap hmoved.view rfl rfl rfl rfl) fun hother => ?_
  have hsame : obj.revision = revision.get := hpublished.symm.trans (not_not.mp hother)
  have hby₁ : PublishedBy w₁ o name revision' payload obj := by
    refine hinv.published ⟨obj, hobj, hmade⟩ hobj ?_
    rw [hsame]
    exact Nat.pos_iff_ne_zero.mp revision.pos
  obtain rfl : revision' = revision := NonZeroU64.ext (hby₁.published.revision.symm.trans hsame)
  refine wp_loadBytes hmoved.view rfl (hby₁.grows hmoved.own.objects) (by omega) (by omega)
    fun w₃ hv₃ hby₃ => ?_
  refine wp_loadBytes hv₃ rfl hby₃ (by omega) (by omega) fun w₄ hv₄ hby₄ => ?_
  -- What the rest of the header says does not matter.
  generalize obj.bytes.read 0 8 = magic
  generalize obj.bytes.read 8 8 = stored
  refine wp_if (fun _ => wp_openUnmap hv₄ rfl rfl rfl rfl) fun _ => ?_
  have hpublished : PublishedAt w₄ o size := ⟨name, revision', payload, obj, hby₄, by omega⟩
  have hhandle : Handle t ⟨some base, size, name, false, none⟩ (Local.mapped call o base size) w₄ :=
    ⟨hv₄, rfl, nofun, rfl, ⟨o, rfl, hpublished, false, rfl⟩, rfl⟩
  show segmentReturns t call (.opened (.ok ⟨some base, size, name, false, none⟩)) w₄
  refine returns_held (.inr rfl) hhandle fun w₅ hrely₅ => ?_
  have hby₅ := hby₄.grows hrely₅.grows
  rw [hcall]
  exact ⟨o, obj, payload, (hrely₅.view _ hv₄).target, hby₅, hlength⟩

/-- **What opens is published.** -/
theorem wp_open {name : Name} {revision : NonZeroU64} {length : Nat}
    (hcall : call = .open name revision length) (hv : (Local.creating call).Of t w) :
    (Segment.open name revision length ()).wp (segmentContract t call) (opening t call) w := by
  have hfailed : ∀ e w', (Local.creating call).Of t w' →
      segmentReturns t call (.opened (.error e)) w' :=
    fun e w' hv' => returns_failed (.inr rfl) hv' ⟨rfl, rfl, rfl⟩
  refine wp_orFail (hfailed _ w hv) fun size hsize => ?_
  obtain ⟨-, hsize⟩ := checkedAdd_eq_some.mp hsize
  refine wp_orFail (hfailed _ w hv) fun sizeOff hoff => ?_
  obtain ⟨-, rfl⟩ := tryFrom_eq_some.mp hoff
  refine wp_perform fun w₁ hrely hinv ending opened w₂ hexec => ?_
  rcases shmOpen_rule hinv (hrely.view _ hv) rfl rfl rfl hexec with
    ⟨errno, rfl, hmoved⟩ | ⟨fd, o, rfl, hname, hmoved⟩
  · exact ⟨_, hmoved, hfailed _ w₂ hmoved.view⟩
  obtain ⟨revision', payload, hmade⟩ := hinv.named hname
  refine ⟨_, hmoved, wp_perform fun w₃ hrely₃ hinv₃ ending₃ stat w₄ hexec₃ => ?_⟩
  obtain ⟨hfound, hstat⟩ := fstat_rule hinv₃ (hrely₃.view _ hmoved.view) rfl rfl hexec₃
  rcases hstat with ⟨errno, rfl⟩ | ⟨obj, rfl, hobj⟩
  · exact ⟨_, hfound, wp_openExit hfound.view rfl rfl rfl rfl⟩
  have hmade₄ := ((hmade.grows hmoved.own.objects).grows hrely₃.grows).grows hfound.own.objects
  refine ⟨_, hfound, ?_⟩
  refine wp_if (fun _ => wp_openExit hfound.view rfl rfl rfl rfl) fun hother => ?_
  have hheader : Segment.HEADER = 64 := rfl
  obtain ⟨hsized, hwhole⟩ := hfound.inv.sized hmade₄ hobj (by omega)
  refine wp_perform fun w₅ hrely₅ hinv₅ ending₅ mapped w₆ hexec₅ => ?_
  have hreader : false = true → o = t := fun h => absurd h (by decide)
  rcases mmap_rule hinv₅ (hrely₅.view _ hfound.view) rfl rfl rfl hreader rfl hexec₅ with
    ⟨errno, rfl, hmapped⟩ | ⟨base, rfl, hmapped⟩
  · exact ⟨_, hmapped, wp_openExit hmapped.view rfl rfl rfl rfl⟩
  refine ⟨_, hmapped, wp_perform fun w₇ hrely₇ hinv₇ ending₇ closed w₈ hexec₇ => ?_⟩
  have hsized₈ : ∀ {v}, Moved t w₇ w₈ v → SizedBy w₈ o name revision' payload := fun hclosed =>
    (((hsized.grows hrely₅.grows).grows hmapped.own.objects).grows hrely₇.grows).grows
      hclosed.own.objects
  rcases close_rule hinv₇ (hrely₇.view _ hmapped.view) rfl rfl hexec₇ with
    ⟨errno, rfl, hclosed⟩ | ⟨rfl, hclosed⟩
  · exact ⟨_, hclosed, wp_openUnmap hclosed.view rfl rfl rfl rfl⟩
  have hview : (Local.mapped call o base size).Of t w₈ := hclosed.view
  exact ⟨_, hclosed, wp_confirm hcall hview (hsized₈ hclosed) hsize (by omega)⟩

end Programs

end MpiRma
