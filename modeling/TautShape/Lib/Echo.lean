import TautShape.Lib.Ledger
/-!
# Echoing what came with a request

A shell around a server keeps, for each stream, a label of the last request asked on
it, and puts it on every answer of that stream.  The server itself forgets the label,
but no two requests wait on one stream: where the exchange passes the audit, each
answer carries the label of the very request it answers.
-/

namespace TautShape.Lib

variable {σ ρ α ℓ : Type*}

/-- What is kept of the labels after one more ask. -/
def remember [DecidableEq σ] (kept : σ → Option ℓ) (label : ℓ) : Ask σ ρ → σ → Option ℓ
  | .read s _ => Function.update kept s (some label)
  | .leave _ | .expire _ | .wake | .quiet => kept

/-- The answers among some replies, with the labels put on them. -/
def tags (kept : σ → Option ℓ) (replies : List (Reply σ α)) : List ((σ × α) × Option ℓ) :=
  replies.filterMap fun reply => reply.answer?.map fun answer => (answer, kept answer.1)

def labels (events : List (ℓ × Ask σ ρ × List (Reply σ α))) : List ℓ :=
  events.filterMap fun
    | (label, .read _ _, _) => some label
    | _ => none

def echoes [DecidableEq σ] :
    (σ → Option ℓ) → List (ℓ × Ask σ ρ × List (Reply σ α)) → List ((σ × α) × Option ℓ)
  | _, [] => []
  | kept, (label, ask, replies) :: rest =>
      tags (remember kept label ask) replies ++ echoes (remember kept label ask) rest

def keptAfter [DecidableEq σ] (kept : σ → Option ℓ)
    (events : List (ℓ × Ask σ ρ × List (Reply σ α))) : σ → Option ℓ :=
  events.foldl (fun kept e => remember kept e.1 e.2.1) kept

namespace Ledger

/-- The answers with the labels of the requests they answer, in order. -/
def answeredLabels (names : List ℓ) (L : Ledger σ ρ α) : List ((σ × α) × Option ℓ) :=
  L.settled.filterMap fun f => f.answer?.map fun answer => (answer, names[f.id]?)

/-- The label kept for a stream is that of the request that waits there. -/
structure Recalls (L : Ledger σ ρ α) (kept : σ → Option ℓ) (names : List ℓ) : Prop where
  issued_eq : L.issued = names.length
  settled_lt : ∀ f ∈ L.settled, f.id < names.length
  waiting : ∀ s w, L.waiting s = some w → w.id < names.length ∧ kept s = names[w.id]?

variable {L M : Ledger σ ρ α} {kept : σ → Option ℓ} {names : List ℓ} {s : σ}

theorem recalls_new : (new : Ledger σ ρ α).Recalls (fun _ => none) ([] : List ℓ) := by
  constructor <;> simp [new]

theorem Recalls.answeredLabels_append (h : L.Recalls kept names) (more : List ℓ) :
    L.answeredLabels (names ++ more) = L.answeredLabels names := by
  apply List.filterMap_congr
  intro f hf
  rw [List.getElem?_append_left (h.settled_lt f hf)]

theorem tags_other (kept : σ → Option ℓ) {replies : List (Reply σ α)}
    (h : replies.all Reply.isOther = true) : tags kept replies = [] := by
  rw [tags, List.filterMap_eq_nil_iff]
  intro reply hreply
  have hother := List.all_eq_true.mp h reply hreply
  cases reply <;> first | rfl | simp [Reply.isOther] at hother

/-! ## Entries -/

variable [DecidableEq σ]

theorem Recalls.issue (h : L.Recalls kept names) (hs : L.waiting s = none) (r : ρ) (label : ℓ) :
    (L.issue s r).Recalls (Function.update kept s (some label)) (names ++ [label]) := by
  have hissued := h.issued_eq
  constructor
  case issued_eq => simp [Ledger.issue, hissued]
  case settled_lt =>
    intro f hf
    have hlt := h.settled_lt f hf
    rw [List.length_append]
    omega
  case waiting =>
    intro s' w hw
    rcases (waiting_issue hs).mp hw with ⟨rfl, rfl⟩ | hold
    · rw [Function.update_self, hissued, List.length_append]
      simp
    · have hne : s' ≠ s := by
        rintro rfl
        simp [hs] at hold
      obtain ⟨hlt, hkept⟩ := h.waiting s' w hold
      rw [Function.update_of_ne hne, hkept, List.getElem?_append_left hlt, List.length_append]
      exact ⟨by omega, rfl⟩

theorem Recalls.settle (h : L.Recalls kept names) {w : Waiting ρ} (hs : L.waiting s = some w)
    (fate : Fate α) (how : TimerEnd) : (L.settle s w fate how).Recalls kept names := by
  constructor
  case issued_eq => exact h.issued_eq
  case settled_lt =>
    intro f hf
    rcases List.mem_append.mp hf with hold | hnew
    · exact h.settled_lt f hold
    · rw [List.mem_singleton.mp hnew]
      exact (h.waiting s w hs).1
  case waiting =>
    intro s' w' hw'
    exact h.waiting s' w' (waiting_settle.mp hw').2

theorem Recalls.answeredLabels_settle (h : L.Recalls kept names) {w : Waiting ρ}
    (hs : L.waiting s = some w) (fate : Fate α) (how : TimerEnd) :
    (L.settle s w fate how).answeredLabels names =
      L.answeredLabels names ++ (fate.answer?.map fun a => ((s, a), kept s)).toList := by
  rw [answeredLabels, Ledger.settle, List.filterMap_append, answeredLabels]
  congr 1
  rw [List.filterMap_cons, List.filterMap_nil, Settled.answer?, (h.waiting s w hs).2]
  cases fate.answer? <;> rfl

theorem Recalls.arm (h : L.Recalls kept names) {w : Waiting ρ} (hs : L.waiting s = some w) :
    (L.arm s w).Recalls kept names := by
  constructor
  case issued_eq => exact h.issued_eq
  case settled_lt => exact h.settled_lt
  case waiting =>
    intro s' w' hw'
    rcases waiting_arm.mp hw' with ⟨rfl, rfl⟩ | ⟨-, hold⟩
    · exact h.waiting s' w hs
    · exact h.waiting s' w' hold

/-! ## Exchanges -/

/-- Some replies were booked: the labels put on their answers are those of the requests that
were answered. -/
structure Echoed (L L' : Ledger σ ρ α) (kept : σ → Option ℓ) (names : List ℓ)
    (replies : List (Reply σ α)) : Prop where
  recalls : L'.Recalls kept names
  answered : L'.answeredLabels names = L.answeredLabels names ++ tags kept replies

theorem retire_tags {fate : Fate α} {replies : List (Reply σ α)}
    {p : Ledger σ ρ α × List (Reply σ α)} (hretire : L.retire s fate replies = some p)
    (kept : σ → Option ℓ) : tags kept replies = tags kept p.2 := by
  unfold Ledger.retire at hretire
  split at hretire
  · obtain rfl := Option.some.inj hretire
    rfl
  · split at hretire
    · obtain rfl := Option.some.inj hretire
      rfl
    · split at hretire
      · obtain rfl := Option.some.inj hretire
        rfl
      · simp at hretire
    · simp at hretire

theorem Recalls.retire (h : L.Recalls kept names) {fate : Fate α} (hfate : fate.answer? = none)
    {replies : List (Reply σ α)} {p : Ledger σ ρ α × List (Reply σ α)}
    (hretire : L.retire s fate replies = some p) :
    p.1.waiting s = none ∧ p.1.Recalls kept names ∧
      p.1.answeredLabels names = L.answeredLabels names := by
  have hsettled : ∀ w, L.waiting s = some w →
      (L.settle s w fate .cancelled).answeredLabels names = L.answeredLabels names := by
    intro w hs
    rw [h.answeredLabels_settle hs, hfate]
    exact List.append_nil _
  unfold Ledger.retire at hretire
  split at hretire
  · rename_i hs
    obtain rfl := Option.some.inj hretire
    exact ⟨hs, h, rfl⟩
  · rename_i w hs
    split at hretire
    · obtain rfl := Option.some.inj hretire
      exact ⟨by simp [Ledger.settle], h.settle hs _ _, hsettled w hs⟩
    · split at hretire
      · obtain rfl := Option.some.inj hretire
        exact ⟨by simp [Ledger.settle], h.settle hs _ _, hsettled w hs⟩
      · simp at hretire
    · simp at hretire

theorem Recalls.answers (h : L.Recalls kept names) {replies : List (Reply σ α)}
    {L' : Ledger σ ρ α} (hanswers : L.answers replies = some L') :
    Echoed L L' kept names replies := by
  fun_induction L.answers replies with
  | case1 L =>
      obtain rfl := Option.some.inj hanswers
      exact ⟨h, (List.append_nil _).symm⟩
  | case2 L rest ih => exact ⟨(ih h hanswers).recalls, (ih h hanswers).answered⟩
  | case3 L s a rest w hs htimer ih =>
      have hdone := ih (h.settle hs _ _) hanswers
      refine ⟨hdone.recalls, ?_⟩
      rw [hdone.answered, h.answeredLabels_settle hs, List.append_assoc]
      rfl
  | case6 L t s a rest w hs htimer ih =>
      have hdone := ih (h.settle hs _ _) hanswers
      refine ⟨hdone.recalls, ?_⟩
      rw [hdone.answered, h.answeredLabels_settle hs, List.append_assoc]
      rfl
  | _ => simp at hanswers

theorem Recalls.replied (h : L.Recalls kept names) {w : Waiting ρ} (hs : L.waiting s = some w)
    {replies : List (Reply σ α)} {L' : Ledger σ ρ α} (hreplied : L.replied s w replies = some L') :
    Echoed L L' kept names replies := by
  unfold Ledger.replied at hreplied
  split at hreplied
  · obtain rfl := Option.some.inj hreplied
    exact ⟨h, (List.append_nil _).symm⟩
  · split at hreplied
    · obtain rfl := Option.some.inj hreplied
      exact ⟨h.arm hs, (List.append_nil _).symm⟩
    · simp at hreplied
  · split at hreplied
    · rename_i a rest hboth
      obtain ⟨rfl, hrest⟩ := hboth
      obtain rfl := Option.some.inj hreplied
      refine ⟨h.settle hs _ _, ?_⟩
      rw [h.answeredLabels_settle hs]
      show _ = _ ++ ((s, a), kept s) :: tags kept rest
      rw [tags_other kept hrest]
      rfl
    · simp at hreplied
  · simp at hreplied

/-- One exchange: the label kept for a stream is that of its last request, and the answers
carry those of the requests they answer. -/
theorem Recalls.post (h : L.Recalls kept names) {e : ℓ × Ask σ ρ × List (Reply σ α)}
    {L' : Ledger σ ρ α} (hpost : L.post e.2.1 e.2.2 = some L') :
    L'.Recalls (remember kept e.1 e.2.1) (names ++ labels [e]) ∧
      L'.answeredLabels (names ++ labels [e]) =
        L.answeredLabels names ++ tags (remember kept e.1 e.2.1) e.2.2 := by
  obtain ⟨label, ask, replies⟩ := e
  cases ask with
  | read s r =>
      simp only [Ledger.post, Option.bind_eq_some_iff] at hpost
      obtain ⟨⟨M, rest⟩, hretire, hreplied⟩ := hpost
      obtain ⟨hnone, hM, hsame⟩ := h.retire rfl hretire
      have hissued := hM.issue hnone r label
      have hdone := hissued.replied (w := ⟨M.issued, r, none⟩) (by simp [Ledger.issue]) hreplied
      -- the labels of this step are looked up when that of the new request is already kept
      have htags := retire_tags hretire (Function.update kept s (some label))
      refine ⟨hdone.recalls, ?_⟩
      show L'.answeredLabels (names ++ [label]) = _ ++ tags (Function.update kept s (some label)) _
      rw [hdone.answered, htags, ← hsame, ← hM.answeredLabels_append [label]]
      rfl
  | leave s =>
      simp only [Ledger.post, Option.bind_eq_some_iff] at hpost
      obtain ⟨⟨M, rest⟩, hretire, hrest⟩ := hpost
      obtain ⟨-, hM, hsame⟩ := h.retire rfl hretire
      have htags := retire_tags hretire kept
      simp only [Option.ite_none_right_eq_some] at hrest htags
      obtain ⟨hall, hL⟩ := hrest
      obtain rfl := Option.some.inj hL
      show M.Recalls kept (names ++ []) ∧ M.answeredLabels (names ++ []) = _ ++ tags kept replies
      rw [List.append_nil, htags, tags_other kept hall, List.append_nil]
      exact ⟨hM, hsame⟩
  | expire t =>
      show L'.Recalls kept (names ++ []) ∧ L'.answeredLabels (names ++ []) = _ ++ tags kept replies
      rw [List.append_nil]
      simp only [Ledger.post] at hpost
      split at hpost
      · split at hpost
        · rename_i hempty
          obtain rfl := Option.some.inj hpost
          obtain rfl := List.isEmpty_iff.mp hempty
          exact ⟨h, (List.append_nil _).symm⟩
        · simp at hpost
      · split at hpost
        · rename_i w s' a hs
          split at hpost
          · rename_i heq
            subst heq
            obtain rfl := Option.some.inj hpost
            refine ⟨h.settle hs _ _, ?_⟩
            rw [h.answeredLabels_settle hs]
            rfl
          · simp at hpost
        · simp at hpost
  | wake =>
      have hdone := h.answers hpost
      show L'.Recalls kept (names ++ []) ∧ L'.answeredLabels (names ++ []) = _ ++ tags kept replies
      rw [List.append_nil]
      exact ⟨hdone.recalls, hdone.answered⟩
  | quiet =>
      simp only [Ledger.post, Option.ite_none_right_eq_some] at hpost
      obtain ⟨hall, hL⟩ := hpost
      obtain rfl := Option.some.inj hL
      show L.Recalls kept (names ++ []) ∧ L.answeredLabels (names ++ []) = _ ++ tags kept replies
      rw [List.append_nil, tags_other kept hall, List.append_nil]
      exact ⟨h, rfl⟩

end Ledger

/-! ## Whole exchanges -/

theorem labels_append (front back : List (ℓ × Ask σ ρ × List (Reply σ α))) :
    labels (front ++ back) = labels front ++ labels back := List.filterMap_append

variable [DecidableEq σ] {events : List (ℓ × Ask σ ρ × List (Reply σ α))}

theorem echoes_concat (kept : σ → Option ℓ) (front : List (ℓ × Ask σ ρ × List (Reply σ α)))
    (e : ℓ × Ask σ ρ × List (Reply σ α)) :
    echoes kept (front ++ [e]) = echoes kept front ++
      tags (remember (keptAfter kept front) e.1 e.2.1) e.2.2 := by
  induction front generalizing kept with
  | nil => rw [List.nil_append, echoes, echoes, echoes, List.append_nil]; rfl
  | cons first front ih => rw [List.cons_append, echoes, ih, echoes, List.append_assoc]; rfl

theorem audit_recalls {L : Ledger σ ρ α} (haudit : Ledger.audit (events.map Prod.snd) = some L) :
    L.Recalls (keptAfter (fun _ => none) events) (labels events) ∧
      echoes (fun _ => none) events = L.answeredLabels (labels events) := by
  induction events using List.reverseRecOn generalizing L with
  | nil =>
      obtain rfl : Ledger.new = L := by simpa [Ledger.audit] using haudit
      exact ⟨Ledger.recalls_new, rfl⟩
  | append_singleton front e ih =>
      rw [List.map_append, List.map_singleton, Ledger.audit_concat,
        Option.bind_eq_some_iff] at haudit
      obtain ⟨M, hM, hpost⟩ := haudit
      obtain ⟨hrecalls, hechoes⟩ := ih hM
      obtain ⟨hrecalls', hanswered⟩ := hrecalls.post hpost
      have hkept : keptAfter (fun _ => none) (front ++ [e]) =
          remember (keptAfter (fun _ => none) front) e.1 e.2.1 := by
        rw [keptAfter, List.foldl_append]
        rfl
      rw [hkept, labels_append, echoes_concat, hechoes, hanswered]
      exact ⟨hrecalls', rfl⟩

/-- **Each answer carries the label of the request it answers.** -/
theorem echoes_eq_answeredLabels {L : Ledger σ ρ α}
    (haudit : Ledger.audit (events.map Prod.snd) = some L) :
    echoes (fun _ => none) events = L.answeredLabels (labels events) :=
  (audit_recalls haudit).2

end TautShape.Lib
