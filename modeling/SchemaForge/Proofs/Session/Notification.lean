import Mathlib.Data.List.Chain
import SchemaForge.Proofs.Editor.Printable
import SchemaForge.Proofs.Editor.Steps
import SchemaForge.Proofs.Inference.Heredity
import SchemaForge.Proofs.Session.AllOrNothing

/-!
What a session tells whoever watches it. The document, the pending change, the text that was told last and
what was dropped are four different things; a run is watched with all of them, and with the fate of the
latest commit, which follows from the requests alone: it waits until it is told or dropped, and the next
commit takes its place. One invariant relates them, and every request keeps it.
-/

namespace SchemaForge

namespace Editor

/-! ### Commits -/

/-- The document after an outcome is the one that was announced last, or else the old one. -/
def Outcome.TellsLatest (o : Outcome) (before : Editor) : Prop :=
  o.editor.document = o.announced.getLast?.getD before.document

theorem tellsLatest_perform (editor : Editor) (operation : Operation) :
    (editor.perform operation).TellsLatest editor := by
  rcases perform_cases editor operation with ⟨change, ledger, -, heq⟩ | ⟨fault, ledger, -, heq⟩
  · rw [heq]
    cases hdocument : change.document <;> simp [Outcome.TellsLatest, make, hdocument]
  · rw [heq]
    rfl

theorem tellsLatest_apply (editor : Editor) (description : Value) :
    (editor.apply description).TellsLatest editor := by
  rw [apply_eq]
  split
  · exact tellsLatest_perform editor _
  · rfl

theorem tellsLatest_applyEach (ds : List Value) :
    ∀ editor : Editor, (editor.applyEach ds).TellsLatest editor := by
  induction ds with
  | nil => exact fun _ => rfl
  | cons d ds ih =>
      intro editor
      have hfirst := tellsLatest_apply editor d
      simp only [applyEach]
      cases (editor.apply d).reply with
      | error fault => exact hfirst
      | ok reply =>
          have hrest := ih (editor.apply d).editor
          rw [Outcome.TellsLatest] at hfirst hrest ⊢
          rw [hrest, hfirst, List.getLast?_append]
          cases ((editor.apply d).editor.applyEach ds).announced.getLast? <;> rfl

theorem tellsLatest_applyAll (editor : Editor) (descriptions : Value) :
    (editor.applyAll descriptions).TellsLatest editor := by
  rw [applyAll_eq]
  split
  · exact tellsLatest_applyEach _ editor
  · rfl

end Editor

namespace Notifier

theorem hear_eq (notifier : Notifier) (announced : List Value) :
    notifier.hear announced =
      { notifier with pending := announced.getLast?.or notifier.pending } := by
  induction announced using List.reverseRecOn with
  | nil => rfl
  | append_singleton docs doc ih =>
      have hsplit : notifier.hear (docs ++ [doc]) = (notifier.hear docs).hear [doc] := by
        simp only [hear, List.foldl_append]
      rw [hsplit, ih, List.getLast?_concat]
      rfl

section Flush

variable {n : Notifier} {doc : Value}

theorem flush_of_none (h : n.pending = none) : n.flush = (n, none) := by
  unfold flush
  simp only [h]

theorem flush_of_same (h : n.pending = some doc)
    (hsame : n.lastText = some (Json.compactText doc)) :
    n.flush = (⟨none, n.lastText⟩, none) := by
  unfold flush
  simp only [h, hsame, if_true]

theorem flush_of_new (h : n.pending = some doc)
    (hnew : n.lastText ≠ some (Json.compactText doc)) :
    n.flush = (⟨none, some (Json.compactText doc)⟩, some (Json.compactText doc)) := by
  unfold flush
  simp only [h, hnew, if_false]

end Flush

end Notifier

namespace Session

/-! ### Requests -/

def sampleSchema (text title : Option String) : Option Value :=
  match readInput text with
  | .ok .null => none
  | .ok v => (Inference.inferSchema (Sample.ofValue v) title).toOption
  | .error _ => none

def textSchema (text : Option String) : Option Value :=
  match readInput text with
  | .ok (.object ms) => some (.object ms)
  | _ => none

/-- What the editor does at a request, if it does anything. -/
def edits (session : Session) : Request → Option Editor.Outcome
  | .apply description => some (session.editor.apply description)
  | .applyAll descriptions => some (session.editor.applyAll descriptions)
  | .importJson text title =>
      (sampleSchema text title).map fun root => session.editor.perform (.replaceDocument root)
  | .importSchema text =>
      (textSchema text).map fun root => session.editor.perform (.replaceDocument root)
  | _ => none

theorem tellsLatest_of_edits {session : Session} {request : Request} {o : Editor.Outcome}
    (h : session.edits request = some o) : o.TellsLatest session.editor := by
  cases request with
  | apply description =>
      cases h
      exact Editor.tellsLatest_apply _ _
  | applyAll descriptions =>
      cases h
      exact Editor.tellsLatest_applyAll _ _
  | importJson text title =>
      obtain ⟨root, -, rfl⟩ := Option.map_eq_some_iff.mp h
      exact Editor.tellsLatest_perform _ _
  | importSchema text =>
      obtain ⟨root, -, rfl⟩ := Option.map_eq_some_iff.mp h
      exact Editor.tellsLatest_perform _ _
  | _ => cases h

/-- What a request does to a session: the editor does something of which the notifier hears, nothing
happens, the pending change is told, or it is dropped. -/
inductive Step (session : Session) : Request → Session → List String → Prop where
  | edit {request : Request} {o : Editor.Outcome} (edits : session.edits request = some o) :
      Step session request ⟨o.editor, session.notifier.map (·.hear o.announced)⟩ []
  | idle {request : Request} (edits : session.edits request = none)
      (other : request ≠ .flush ∧ request ≠ .close ∧ request ≠ .cancel) :
      Step session request session []
  | flush : Step session .flush session.flush.session session.flush.emitted
  | close : Step session .close session.flush.session.cancel.session session.flush.emitted
  | cancel : Step session .cancel session.cancel.session []

theorem step_replace {session : Session} {request : Request} {root : Value} (notices : List Notice)
    (h : session.edits request = some (session.editor.perform (.replaceDocument root))) :
    Step session request (session.replace root notices).session
      (session.replace root notices).emitted :=
  @Step.edit session request (session.editor.perform (.replaceDocument root)) h

theorem step_perform (session : Session) (request : Request) :
    Step session request (session.perform request).session (session.perform request).emitted := by
  cases request with
  | apply description => exact .edit rfl
  | applyAll descriptions => exact .edit rfl
  | importJson text title =>
      have hedits : session.edits (.importJson text title) = (sampleSchema text title).map
        fun root => session.editor.perform (.replaceDocument root) := rfl
      rw [sampleSchema] at hedits
      rw [perform, importJson]
      split
      · next h => exact .idle (by rw [hedits, h]; rfl) (by simp)
      · next h => exact .idle (by rw [hedits, h]; rfl) (by simp)
      · next v hnull h =>
          simp only [h] at hedits
          cases hschema : Inference.inferSchema (Sample.ofValue v) title with
          | error fault =>
              simp only [hschema]
              exact .idle (by rw [hedits, hschema]; rfl) (by simp)
          | ok schema =>
              simp only [hschema]
              exact step_replace _ (by rw [hedits, hschema]; rfl)
  | importSchema text =>
      have hedits : session.edits (.importSchema text) = (textSchema text).map
        fun root => session.editor.perform (.replaceDocument root) := rfl
      rw [textSchema] at hedits
      rw [perform, importSchema]
      split
      · next h => exact .idle (by rw [hedits, h]; rfl) (by simp)
      · next ms h => exact step_replace _ (by rw [hedits, h]; rfl)
      · next v hobject h =>
          refine .idle ?_ (by simp)
          cases v with
          | object ms => exact absurd rfl (hobject ms)
          | _ => rw [hedits, h]; rfl
  | exportText indent => exact .idle rfl (by simp)
  | flush => exact .flush
  | close => exact .close
  | cancel => exact .cancel

theorem flush_of_notifier {session : Session} {n : Notifier} (h : session.notifier = some n) :
    session.flush.session = ⟨session.editor, some n.flush.1⟩ ∧
      session.flush.emitted = n.flush.2.toList := by
  have hflush : session.flush =
      ⟨⟨session.editor, some n.flush.1⟩, n.flush.2.toList, [], .ok (.bool n.flush.2.isSome)⟩ := by
    rw [flush, h]
  exact ⟨by rw [hflush], by rw [hflush]⟩

theorem cancel_of_notifier {session : Session} {n : Notifier} (h : session.notifier = some n) :
    session.cancel.session = ⟨session.editor, some n.cancel⟩ := by
  unfold cancel unchanged
  rw [h]
  rfl

/-! ### Watched runs -/

/-- What has become of the latest commit: there was none, it is waiting to be told, it was told, or it was
dropped. -/
inductive Fate where
  | none
  | waiting
  | told
  | dropped
  deriving DecidableEq

/-- The fate of the latest commit after a request at which some documents were committed. -/
def Fate.after (fate : Fate) (commits : List Value) : Request → Fate
  | .flush | .close => if fate = .waiting then .told else fate
  | .cancel => if fate = .waiting then .dropped else fate
  | _ => if commits.isEmpty then fate else .waiting

namespace Fate

variable {fate : Fate} {commits : List Value} {session : Session} {request : Request}

theorem after_of_edits {o : Editor.Outcome} (h : session.edits request = some o) :
    fate.after commits request = if commits.isEmpty then fate else .waiting := by
  cases request with
  | flush => cases h
  | close => cases h
  | cancel => cases h
  | _ => rfl

theorem after_of_idle (h : request ≠ .flush ∧ request ≠ .close ∧ request ≠ .cancel) :
    fate.after [] request = fate := by
  cases request with
  | flush => exact absurd rfl h.1
  | close => exact absurd rfl h.2.1
  | cancel => exact absurd rfl h.2.2
  | _ => rfl

end Fate

/-- A session that is watched from its beginning: with the fate of the latest commit, and the texts that
were given out so far. -/
structure Watched where
  session : Session
  fate : Fate
  texts : List String

namespace Watched

def start (session : Session) : Watched := ⟨session, .none, []⟩

def step (w : Watched) (request : Request) : Watched where
  session := (w.session.perform request).session
  fate := w.fate.after ((w.session.edits request).elim [] (·.announced)) request
  texts := w.texts ++ (w.session.perform request).emitted

def run (w : Watched) (requests : List Request) : Watched := requests.foldl step w

/-- The document of the change that is pending. -/
def pending (w : Watched) : Option Value := w.session.notifier.bind (·.pending)

/-- What is pending, what was told and what became of the latest commit fit together. -/
structure IsFaithful (w : Watched) : Prop where
  notifier : ∃ n, w.session.notifier = some n ∧ n.lastText = w.texts.getLast?
  waiting : w.fate = .waiting → w.pending = some w.session.editor.document
  settled : w.fate ≠ .waiting → w.pending = none
  told : w.fate = .told → w.texts.getLast? = some (Json.compactText w.session.editor.document)
  distinct : w.texts.IsChain (· ≠ ·)

theorem isFaithful_edit {w : Watched} {o : Editor.Outcome} (h : w.IsFaithful)
    (latest : o.TellsLatest w.session.editor) :
    IsFaithful ⟨⟨o.editor, w.session.notifier.map (·.hear o.announced)⟩,
      if o.announced.isEmpty then w.fate else .waiting, w.texts⟩ := by
  obtain ⟨n, hn, htext⟩ := h.notifier
  have hpending : w.pending = n.pending := by rw [pending, hn]; rfl
  rcases List.eq_nil_or_concat o.announced with hnone | ⟨docs, doc, hdocs⟩
  · -- Nothing was committed, and the document is the old one.
    have hdocument : o.editor.document = w.session.editor.document := by
      rw [latest, hnone]
      rfl
    rw [hnone, hn]
    refine ⟨⟨n, rfl, htext⟩, fun hw => ?_, fun hw => ?_, fun hw => ?_, h.distinct⟩
    · rw [hdocument, ← h.waiting hw, hpending]
      rfl
    · rw [← h.settled hw, hpending]
      rfl
    · rw [hdocument]
      exact h.told hw
  · have hdocument : o.editor.document = doc := by
      rw [latest, hdocs, List.concat_eq_append, List.getLast?_concat]
      rfl
    have hempty : o.announced.isEmpty = false := by simp [hdocs]
    rw [hempty, hn]
    refine ⟨⟨n.hear o.announced, rfl, ?_⟩, fun _ => ?_, by simp, by simp, h.distinct⟩
    · rw [Notifier.hear_eq]
      exact htext
    · simp only [pending, Option.map_some, Option.bind_some, Notifier.hear_eq, hdocs,
        List.concat_eq_append, List.getLast?_concat, hdocument]
      rfl

/-- Nothing is told if nothing is pending, or if it would be told twice in a row. -/
theorem isFaithful_flush {w : Watched} (h : w.IsFaithful) :
    IsFaithful ⟨w.session.flush.session, if w.fate = .waiting then .told else w.fate,
      w.texts ++ w.session.flush.emitted⟩ := by
  obtain ⟨n, hn, htext⟩ := h.notifier
  have hpending : w.pending = n.pending := by rw [pending, hn]; rfl
  obtain ⟨hsession, hemitted⟩ := flush_of_notifier hn
  rw [hsession, hemitted]
  by_cases hfate : w.fate = .waiting
  · have hdoc : n.pending = some w.session.editor.document := hpending ▸ h.waiting hfate
    rw [if_pos hfate]
    by_cases hsame : n.lastText = some (Json.compactText w.session.editor.document)
    · rw [Notifier.flush_of_same hdoc hsame]
      refine ⟨⟨_, rfl, ?_⟩, by simp, fun _ => rfl, fun _ => ?_, ?_⟩
      · simpa using htext
      · simpa [← htext] using hsame
      · simpa using h.distinct
    · rw [Notifier.flush_of_new hdoc hsame]
      refine ⟨⟨_, rfl, ?_⟩, by simp, fun _ => rfl, fun _ => ?_, ?_⟩
      · simp
      · simp
      · refine List.isChain_append.mpr ⟨h.distinct, List.isChain_singleton _, ?_⟩
        intro x hx y hy
        rw [← htext] at hx
        cases hy
        rintro rfl
        exact hsame hx
  · have hnone : n.pending = none := hpending ▸ h.settled hfate
    rw [if_neg hfate, Notifier.flush_of_none hnone]
    refine ⟨⟨n, rfl, ?_⟩, fun hw => absurd hw hfate, fun _ => hnone, fun hw => ?_, ?_⟩
    · simpa using htext
    · simpa using h.told hw
    · simpa using h.distinct

theorem isFaithful_cancel {w : Watched} (h : w.IsFaithful) :
    IsFaithful ⟨w.session.cancel.session, if w.fate = .waiting then .dropped else w.fate,
      w.texts⟩ := by
  obtain ⟨n, hn, htext⟩ := h.notifier
  rw [cancel_of_notifier hn]
  refine ⟨⟨n.cancel, rfl, htext⟩, fun hw => ?_, fun _ => rfl, fun hw => ?_, h.distinct⟩
  · split at hw
    · cases hw
    · next hfate => exact absurd hw hfate
  · split at hw
    · cases hw
    · exact h.told hw

theorem IsFaithful.of_step {w : Watched} (h : w.IsFaithful) {request : Request} {session : Session}
    {emitted : List String} (hstep : Step w.session request session emitted) :
    IsFaithful ⟨session, w.fate.after ((w.session.edits request).elim [] (·.announced)) request,
      w.texts ++ emitted⟩ := by
  cases hstep with
  | @edit _ o hedits =>
      rw [hedits, Fate.after_of_edits hedits, List.append_nil]
      exact isFaithful_edit h (tellsLatest_of_edits hedits)
  | idle hedits hother =>
      rw [hedits, Option.elim_none, Fate.after_of_idle hother, List.append_nil]
      exact h
  | flush => exact isFaithful_flush h
  | close =>
      -- After the flush nothing waits any more, so that nothing is dropped.
      have hfate : (if w.fate = .waiting then Fate.told else w.fate) ≠ .waiting := by
        split
        · simp
        · next hfate => exact hfate
      have hcancel := isFaithful_cancel (isFaithful_flush h)
      rwa [if_neg hfate] at hcancel
  | cancel =>
      rw [List.append_nil]
      exact isFaithful_cancel h

/-- Every request keeps what is pending, what was told and what became of the latest commit in agreement. -/
theorem IsFaithful.step {w : Watched} (h : w.IsFaithful) (request : Request) :
    (w.step request).IsFaithful :=
  h.of_step (step_perform w.session request)

theorem IsFaithful.run {w : Watched} (h : w.IsFaithful) (requests : List Request) :
    (w.run requests).IsFaithful := by
  induction requests generalizing w with
  | nil => exact h
  | cons request requests ih => exact ih (h.step request)

theorem isFaithful_start {seed : Option String} {session : Session} {notices : List Notice}
    (h : Session.start seed true = .ok (session, notices)) : (start session).IsFaithful := by
  obtain ⟨⟨doc, _⟩, -, h⟩ := bind_eq_ok_iff.mp h
  obtain ⟨editor, -, h⟩ := bind_eq_ok_iff.mp h
  cases h
  exact ⟨⟨.idle, rfl, rfl⟩, by simp [start], fun _ => rfl, by simp [start], List.isChain_nil⟩

end Watched

/-! ### Documents that have a text -/

/-- Whether what a request brings in, beside texts, has a text. -/
def Request.IsPrintable : Request → Prop
  | .apply description => description.IsPrintable
  | .applyAll descriptions => descriptions.IsPrintable
  | _ => True

theorem isPrintable_of_sampleSchema {text title : Option String} {root : Value}
    (h : sampleSchema text title = some root) : root.IsPrintable := by
  unfold sampleSchema at h
  split at h
  · cases h
  · next v _ hread =>
      have hjson := Sample.isJson_ofValue (readInput_eq_ok_iff.mp hread).isReadable.isJson
      cases hschema : Inference.inferSchema (Sample.ofValue v) title with
      | error _ =>
          rw [hschema] at h
          cases h
      | ok schema =>
          rw [hschema] at h
          cases h
          exact Inference.hereditary_inferSchema Value.hereditary_isPrintable hjson hschema
  · cases h

theorem isPrintable_of_textSchema {text : Option String} {root : Value} (h : textSchema text = some root) :
    root.IsPrintable := by
  unfold textSchema at h
  split at h
  · next hread =>
      cases h
      exact (readInput_eq_ok_iff.mp hread).isReadable.isPrintable
  · cases h

theorem givenPrintable_of_edits {session : Session} (h : session.editor.GivenPrintable) {request : Request}
    (hrequest : request.IsPrintable) {o : Editor.Outcome} (hedits : session.edits request = some o) :
    o.editor.GivenPrintable := by
  cases request with
  | apply description =>
      cases hedits
      exact h.apply hrequest
  | applyAll descriptions =>
      cases hedits
      exact h.applyAll hrequest
  | importJson text title =>
      obtain ⟨root, hroot, rfl⟩ := Option.map_eq_some_iff.mp hedits
      exact h.replace (isPrintable_of_sampleSchema hroot)
  | importSchema text =>
      obtain ⟨root, hroot, rfl⟩ := Option.map_eq_some_iff.mp hedits
      exact h.replace (isPrintable_of_textSchema hroot)
  | _ => cases hedits

theorem editor_flush (session : Session) : session.flush.session.editor = session.editor := by
  unfold flush
  split <;> rfl

theorem Step.givenPrintable {session after : Session} {request : Request} {emitted : List String}
    (hstep : Step session request after emitted) (h : session.editor.GivenPrintable)
    (hrequest : request.IsPrintable) : after.editor.GivenPrintable := by
  cases hstep with
  | edit edits => exact givenPrintable_of_edits h hrequest edits
  | idle _ _ => exact h
  | flush => rwa [editor_flush]
  | close =>
      change session.flush.session.editor.GivenPrintable
      rwa [editor_flush]
  | cancel => exact h

theorem isReadable_of_seedDocument {seed : Option String} {v : Value} {notices : List Notice}
    (h : seedDocument seed = .ok (some v, notices)) : v.IsReadable := by
  unfold seedDocument at h
  split at h
  · cases h
  · split at h
    · cases h
    · split at h
      · cases h
      · cases h
      · next hread =>
          cases h
          exact Json.isReadable_of_read hread
      · cases h

theorem givenPrintable_start {seed : Option String} {watched : Bool} {session : Session} {notices : List Notice}
    (h : Session.start seed watched = .ok (session, notices)) : session.editor.GivenPrintable := by
  obtain ⟨⟨doc, _⟩, hseed, h⟩ := bind_eq_ok_iff.mp h
  obtain ⟨editor, hnew, h⟩ := bind_eq_ok_iff.mp h
  cases h
  exact .new hnew fun v hv => (isReadable_of_seedDocument (hv ▸ hseed)).isPrintable

theorem givenPrintable_run {w : Watched} (h : w.session.editor.GivenPrintable) {requests : List Request}
    (hrequests : ∀ request ∈ requests, request.IsPrintable) : (w.run requests).session.editor.GivenPrintable := by
  induction requests generalizing w with
  | nil => exact h
  | cons request requests ih =>
      have first := (step_perform w.session request).givenPrintable h (hrequests request List.mem_cons_self)
      exact @ih (w.step request) first fun r hr => hrequests r (List.mem_cons_of_mem _ hr)

/-! ### What is told -/

theorem Step.emitted_length_le {session after : Session} {request : Request} {emitted : List String}
    (h : Step session request after emitted) :
    emitted.length ≤ 1 ∧ (emitted ≠ [] → request = .flush ∨ request = .close) := by
  have hflush : session.flush.emitted.length ≤ 1 := by
    unfold Session.flush
    split
    · exact Nat.zero_le 1
    · exact Option.length_toList_le
  cases h with
  | flush => exact ⟨hflush, fun _ => .inl rfl⟩
  | close => exact ⟨hflush, fun _ => .inr rfl⟩
  | _ => exact ⟨Nat.zero_le 1, fun h => absurd rfl h⟩

theorem exportText_null (session : Session) :
    session.exportText .null = .ok (Json.compactText session.editor.document) := by
  unfold exportText Editor.toJson
  split
  · next s h => rw [h]; rfl
  · rfl

/-- Nothing is lost and nothing is repeated in telling of changes: after any requests the pending change is
the current document; the text that was told last is that of the current document, unless a change is
pending, nothing was committed yet, or the latest commit was dropped; no two texts that follow each other are
equal; and a text is given out by flushing and closing alone, one at most. The current document has a text, if
no request brought in an integer that has none. -/
theorem notifications_complete {seed : Option String} {session : Session} {notices : List Notice}
    (hstart : Session.start seed true = .ok (session, notices)) (requests : List Request) :
    let w := (Watched.start session).run requests
    (∀ doc, w.pending = some doc → doc = w.session.editor.document) ∧
      (w.pending = none → w.fate ≠ .none → w.fate ≠ .dropped →
        ∃ text, w.session.exportText .null = .ok text ∧ w.texts.getLast? = some text) ∧
      w.texts.IsChain (· ≠ ·) ∧
      (∀ request, (w.session.perform request).emitted.length ≤ 1 ∧
        ((w.session.perform request).emitted ≠ [] → request = .flush ∨ request = .close)) ∧
      ((∀ request ∈ requests, request.IsPrintable) → w.session.editor.document.IsPrintable) := by
  intro w
  have h : w.IsFaithful := (Watched.isFaithful_start hstart).run requests
  refine ⟨fun doc hdoc => ?_, fun hnone hcommitted hkept => ?_, h.distinct,
    fun request => (step_perform w.session request).emitted_length_le,
    fun hrequests => (givenPrintable_run (givenPrintable_start hstart) hrequests).document⟩
  · cases hfate : w.fate with
    | waiting => exact Option.some.inj (hdoc.symm.trans (h.waiting hfate))
    | _ =>
        rw [h.settled (by simp [hfate])] at hdoc
        cases hdoc
  · refine ⟨_, exportText_null _, h.told ?_⟩
    cases hfate : w.fate with
    | none => exact absurd hfate hcommitted
    | dropped => exact absurd hfate hkept
    | told => rfl
    | waiting =>
        rw [h.waiting hfate] at hnone
        cases hnone

def entitle (title : String) : Request :=
  .apply (.object [(.str "op", .str "set_value"), (.str "path", .array [.str "title"]),
    (.str "value", .str title)])

def writtenBack : List Request :=
  [entitle "a", .flush, entitle "b", .cancel, entitle "a", .close]

def fresh : Session := ⟨⟨Schema.emptyDocument, OpenNodes.initial, 1, []⟩, some .idle⟩

/-- The title that was written back is not told again, and still it is the one that was told last. -/
theorem notifications_complete_written_back :
    ((Watched.start fresh).run writtenBack).fate = .told ∧
      ∃ text, ((Watched.start fresh).run writtenBack).session.exportText .null = .ok text ∧
        ((Watched.start fresh).run writtenBack).texts.getLast? = some text := by
  have hstart : Session.start none true = .ok (fresh, []) := rfl
  have hfate : ((Watched.start fresh).run writtenBack).fate = .told := rfl
  obtain ⟨-, hlatest, -⟩ := notifications_complete hstart writtenBack
  exact ⟨hfate, hlatest rfl (by simp [hfate]) (by simp [hfate])⟩

end Session

end SchemaForge
