import TautShape.Lib.Desk
/-!
# Servers that work as a desk

`Books` is the agreement of a desk with the ledger of its exchange: every turn is an
exchange that the ledger can book.  `Serves` is the refinement obligation of a concrete
server: once each of its steps is a turn of the desk, every run of it is accounted for.
-/

namespace TautShape.Lib

variable {σ ρ α : Type*}

namespace Desk

variable [DecidableEq σ] {P : Policy σ ρ α} {d : Desk σ ρ}

/-! ## The books of the desk -/

/-- A request that waits in the ledger, as it lies at the desk. -/
def parked (w : Waiting ρ) : Kept ρ := ⟨w.request, w.timer⟩

/-- The desk keeps what waits in the ledger. -/
structure Books (d : Desk σ ρ) (L : Ledger σ ρ α) : Prop where
  kept : ∀ s, d.kept s = (L.waiting s).map parked
  timers : L.timers = d.timers

variable {L : Ledger σ ρ α}

omit [DecidableEq σ] in
theorem books_new : (new : Desk σ ρ).Books (Ledger.new : Ledger σ ρ α) :=
  ⟨fun _ => rfl, rfl⟩

theorem Books.settle (h : d.Books L) (s : σ) (w : Waiting ρ) (fate : Fate α) (how : TimerEnd) :
    (d.put s none).Books (L.settle s w fate how) := by
  refine ⟨fun s' => ?_, h.timers⟩
  simp only [put_kept, Ledger.settle, Function.update_apply]
  split
  · rfl
  · exact h.kept s'

theorem Books.issue (h : d.Books L) (s : σ) (r : ρ) :
    (d.put s (some ⟨r, none⟩)).Books (L.issue s r) := by
  refine ⟨fun s' => ?_, h.timers⟩
  simp only [put_kept, Ledger.issue, Function.update_apply]
  split
  · rfl
  · exact h.kept s'

theorem Books.retire (h : d.Books L) (s : σ) (fate : Fate α) (rest : List (Reply σ α)) :
    ∃ M, L.retire s fate (giveBack (d.kept s) ++ rest) = some (M, rest) ∧
      (d.put s none).Books M := by
  have hkept := h.kept s
  cases hw : L.waiting s with
  | none =>
      rw [hw, Option.map_none] at hkept
      refine ⟨L, ?_, ?_⟩
      · simp [Ledger.retire, hw, hkept, giveBack]
      · rw [put_self hkept]
        exact h
  | some w =>
      rw [hw, Option.map_some] at hkept
      refine ⟨L.settle s w fate .cancelled, ?_, h.settle s w fate .cancelled⟩
      cases htimer : w.timer with
      | none => simp [Ledger.retire, hw, hkept, giveBack, parked, htimer]
      | some t => simp [Ledger.retire, hw, hkept, giveBack, parked, htimer]

theorem Books.visit (h : d.Books L) (P : Policy σ ρ α) (s : σ) :
    ∃ M, L.answers (d.visit P s).2 = some M ∧ (d.visit P s).1.Books M := by
  have hkept := h.kept s
  rw [Desk.visit]
  cases hw : L.waiting s with
  | none =>
      rw [hw, Option.map_none] at hkept
      rw [hkept]
      exact ⟨L, rfl, h⟩
  | some w =>
      rw [hw, Option.map_some] at hkept
      rw [hkept]
      simp only
      split
      · exact ⟨L, rfl, h⟩
      · rename_i a _
        refine ⟨L.settle s w (.answered a) .cancelled, ?_, h.settle s w _ _⟩
        cases htimer : w.timer with
        | none => simp [giveBack, parked, htimer, Ledger.answers, hw]
        | some t => simp [giveBack, parked, htimer, Ledger.answers, hw]

theorem Books.wake (h : d.Books L) (P : Policy σ ρ α) :
    ∃ M, L.answers (d.wake P).2 = some M ∧ (d.wake P).1.Books M := by
  have hrounds : ∀ (keys : List σ) (d : Desk σ ρ) (L : Ledger σ ρ α), d.Books L →
      ∃ M, L.answers (outputs (Desk.visit P) d keys).flatten = some M ∧
        (after (Desk.visit P) d keys).Books M := by
    intro keys
    induction keys with
    | nil => exact fun d L h => ⟨L, rfl, h⟩
    | cons s rest ih =>
        intro d L h
        obtain ⟨M, hanswers, hM⟩ := h.visit P s
        obtain ⟨N, hrest, hN⟩ := ih _ M hM
        refine ⟨N, ?_, hN⟩
        rw [outputs, List.flatten_cons, Ledger.answers_append hanswers, hrest]
  exact hrounds d.order d L h

theorem Books.read (h : d.Books L) (P : Policy σ ρ α) (s : σ) (r : ρ) {tail : List (Reply σ α)}
    (htail : tail.all Reply.isOther = true) (hquiet : P.answer s r = none → tail = []) :
    ∃ M, L.post (.read s r) ((d.read P s r).2 ++ tail) = some M ∧ (d.read P s r).1.Books M := by
  unfold Desk.read
  split
  · rename_i a hanswer
    obtain ⟨M, hretire, hM⟩ := h.retire s .superseded ([.answer s a] ++ tail)
    refine ⟨(M.issue s r).settle s ⟨M.issued, r, none⟩ (.answered a) .cancelled, ?_, ?_⟩
    · rw [List.append_assoc, Ledger.post, hretire, Option.bind_some]
      simp [Ledger.replied, htail]
    · have hissued := (hM.issue s r).settle s ⟨M.issued, r, none⟩ (.answered a) .cancelled
      refine ⟨fun s' => ?_, hissued.timers⟩
      rw [← hissued.kept s']
      simp only [put_kept]
      split <;> rfl
  · rename_i hanswer
    obtain rfl := hquiet hanswer
    simp only [List.append_nil]
    split
    · obtain ⟨M, hretire, hM⟩ := h.retire s .superseded [.arm (d.timers + 1)]
      have htimers : M.timers = d.timers := hM.timers
      refine ⟨(M.issue s r).arm s ⟨M.issued, r, none⟩, ?_, ?_⟩
      · rw [Ledger.post, hretire, Option.bind_some]
        simp [Ledger.replied, Ledger.issue, htimers]
      · refine ⟨fun s' => ?_, by simp [Ledger.arm, Ledger.issue, htimers]⟩
        have hold := hM.kept s'
        simp only [put_kept] at hold
        simp only [put_kept, Ledger.arm, Ledger.issue, Function.update_apply]
        split
        · simp [parked, htimers]
        · rename_i hne
          simpa [hne] using hold
    · obtain ⟨M, hretire, hM⟩ := h.retire s .superseded []
      rw [List.append_nil] at hretire
      refine ⟨M.issue s r, ?_, ?_⟩
      · rw [Ledger.post, hretire, Option.bind_some, Ledger.replied]
      · have hissued := hM.issue s r
        refine ⟨fun s' => ?_, hissued.timers⟩
        rw [← hissued.kept s']
        simp only [put_kept]
        split <;> rfl

theorem Books.expire (h : d.Books L) (hsound : d.Sound) {asks : List (σ × ρ)} {fired : List Nat}
    {out : List (Reply σ α)} (haccounts : L.Accounts asks fired out)
    (P : Policy σ ρ α) (hlate : ∀ s k, d.kept s = some k → (P.late s k.request).isSome = true)
    (t : Nat) :
    ∃ M, L.post (.expire t) (d.expire P t).2 = some M ∧ (d.expire P t).1.Books M := by
  by_cases hany : ∃ s w, L.waiting s = some w ∧ w.timer = some t
  · obtain ⟨s, w, hw, ht⟩ := hany
    have hkept := h.kept s
    rw [hw, Option.map_some] at hkept
    have harmed := (haccounts.armed_iff t s).mpr ⟨w, hw, ht⟩
    obtain ⟨a, ha⟩ := Option.isSome_iff_exists.mp (hlate s _ hkept)
    rw [expire_of_kept hsound P hkept ht, ha]
    refine ⟨L.settle s w (.answered a) .expired, ?_, h.settle s w _ _⟩
    simp [Ledger.post, harmed, hw]
  · have hnone : ∀ s k, d.kept s = some k → k.timer ≠ some t := by
      intro s k hk ht
      rw [h.kept, Option.map_eq_some_iff] at hk
      obtain ⟨w, hw, rfl⟩ := hk
      exact hany ⟨s, w, hw, ht⟩
    have harmed : L.armed t = none := by
      refine Option.eq_none_iff_forall_ne_some.mpr fun s hs => hany ?_
      exact ⟨s, (haccounts.armed_iff t s).mp hs⟩
    rw [expire_of_not_kept P hnone]
    exact ⟨L, by simp [Ledger.post, harmed], h⟩

/-! ## Turns of a concrete server -/

/-- What a server may put out beside what the desk puts out: nothing that concerns a
request, and nothing at all where a request is left waiting or a timer ran out. -/
def Trails (P : Policy σ ρ α) : Ask σ ρ → List (Reply σ α) → Prop
  | .read s r, tail => tail.all Reply.isOther = true ∧ (P.answer s r = none → tail = [])
  | .expire _, tail => tail = []
  | _, tail => tail.all Reply.isOther = true

omit [DecidableEq σ] in
theorem Trails.other {ask : Ask σ ρ} {tail : List (Reply σ α)} (h : Trails P ask tail) :
    tail.all Reply.isOther = true := by
  cases ask with
  | read s r => exact h.1
  | expire t =>
      obtain rfl : tail = [] := h
      rfl
  | _ => exact h

theorem answers_trail (L : Ledger σ ρ α) {tail : List (Reply σ α)}
    (htail : tail.all Reply.isOther = true) : L.answers tail = some L := by
  induction tail with
  | nil => rfl
  | cons r rest ih =>
      rw [List.all_cons, Bool.and_eq_true] at htail
      cases r with
      | other => exact ih htail.2
      | _ => simp [Reply.isOther] at htail

theorem Books.serve (h : d.Books L) (hsound : d.Sound) {asks : List (σ × ρ)} {fired : List Nat}
    {out : List (Reply σ α)} (haccounts : L.Accounts asks fired out) (P : Policy σ ρ α)
    (hlate : ∀ s k, d.kept s = some k → (P.late s k.request).isSome = true) (ask : Ask σ ρ)
    {tail : List (Reply σ α)} (htail : Trails P ask tail) :
    ∃ M, L.post ask ((d.serve P ask).2 ++ tail) = some M ∧ (d.serve P ask).1.Books M := by
  cases ask with
  | read s r => exact h.read P s r htail.1 htail.2
  | leave s =>
      obtain ⟨M, hretire, hM⟩ := h.retire s .dropped tail
      have hall : tail.all Reply.isOther = true := htail
      refine ⟨M, ?_, hM.kept, hM.timers⟩
      rw [Desk.serve, Desk.leave, Ledger.post, hretire, Option.bind_some, if_pos hall]
  | expire t =>
      obtain rfl : tail = [] := htail
      rw [List.append_nil]
      exact h.expire hsound haccounts P hlate t
  | wake =>
      obtain ⟨M, hanswers, hM⟩ := h.wake P
      exact ⟨M, by rw [Desk.serve, Ledger.post, Ledger.answers_append hanswers,
        answers_trail M htail], hM⟩
  | quiet =>
      have hall : tail.all Reply.isOther = true := htail
      exact ⟨L, by rw [Desk.serve, List.nil_append, Ledger.post, if_pos hall], h⟩

/-- A server went from `d` to `d'` as the desk does under the policy `P`.  What waits
could be answered under the server's own policies, before and after, exactly if `P`
says so. -/
structure Turn (P before behind : Policy σ ρ α) (d : Desk σ ρ) (ask : Ask σ ρ)
    (replies : List (Reply σ α)) (d' : Desk σ ρ) : Prop where
  moves : d' = (d.serve P ask).1
  replied : ∃ tail, Trails P ask tail ∧ replies = (d.serve P ask).2 ++ tail
  answered : ask ≠ .wake → ∀ s k, d.kept s = some k →
    before.answer s k.request = none → P.answer s k.request = none
  waits : ∀ s k, d'.kept s = some k → P.answer s k.request = none →
    behind.answer s k.request = none
  late : ∀ s k, d.kept s = some k → (P.late s k.request).isSome = true

/-- A turn under a policy that what waits already met, and that stays. -/
theorem turn_of_moves {ask : Ask σ ρ} {replies : List (Reply σ α)} {d' : Desk σ ρ}
    (hmoves : d' = (d.serve P ask).1)
    (hreplied : ∃ tail, Trails P ask tail ∧ replies = (d.serve P ask).2 ++ tail)
    (hlate : ∀ s r, (P.late s r).isSome = true) : Turn P P P d ask replies d' :=
  ⟨hmoves, hreplied, fun _ _ _ _ h => h, fun _ _ _ h => h, fun s k _ => hlate s k.request⟩

theorem turn_of_serve {ask : Ask σ ρ} {replies : List (Reply σ α)} {d' : Desk σ ρ}
    (hmoves : d' = (d.serve P ask).1) (hreplied : replies = (d.serve P ask).2)
    (htrails : Trails P ask []) (hlate : ∀ s r, (P.late s r).isSome = true) :
    Turn P P P d ask replies d' := by
  apply turn_of_moves hmoves _ hlate
  exact ⟨[], htrails, by rw [hreplied, List.append_nil]⟩

/-- Where nothing can be answered, a wake is a turn that answers nothing. -/
theorem Settled.idle_turn (h : d.Settled P) (hlate : ∀ s r, (P.late s r).isSome = true)
    {tail : List (Reply σ α)} (htail : tail.all Reply.isOther = true) :
    Turn P P P d .wake tail d := by
  apply turn_of_moves _ _ hlate
  · rw [Desk.serve, h.wake]
  · exact ⟨tail, htail, by rw [Desk.serve, h.wake, List.nil_append]⟩

theorem Turn.sound {before behind : Policy σ ρ α} {ask : Ask σ ρ} {replies : List (Reply σ α)}
    {d' : Desk σ ρ} (h : Turn P before behind d ask replies d') (hsound : d.Sound) : d'.Sound := by
  rw [h.moves]
  exact hsound.serve P ask

theorem Turn.settled {before behind : Policy σ ρ α} {ask : Ask σ ρ} {replies : List (Reply σ α)}
    {d' : Desk σ ρ} (h : Turn P before behind d ask replies d') (hsound : d.Sound)
    (hsettled : d.Settled before) : d'.Settled behind := by
  have hserved : d'.Settled P := by
    rw [h.moves]
    refine serve_settled hsound fun hask s k hk => ?_
    exact h.answered hask s k hk (hsettled s k hk)
  exact fun s k hk => h.waits s k hk (hserved s k hk)

/-- What a turn of the server does to one stream. -/
theorem Turn.outcome {before behind : Policy σ ρ α} {ask : Ask σ ρ}
    {replies : List (Reply σ α)} {d' : Desk σ ρ} (h : Turn P before behind d ask replies d')
    (hsound : d.Sound) (s : σ) : Outcome P d s ask (d', replies) := by
  obtain ⟨tail, htail, hreplies⟩ := h.replied
  have htold : told s replies = told s (d.serve P ask).2 := by
    rw [hreplies, told_append, told_other s htail.other, List.append_nil]
  rw [h.moves]
  cases serve_outcome hsound P s ask with
  | told a hheard hsaid hkept => exact .told a hheard (htold.trans hsaid) hkept
  | untold hsaid hkept => exact .untold (htold.trans hsaid) hkept

/-! ## Machines that serve as the desk does -/

variable {τ ι ο : Type*}

/-- A machine whose steps are turns of its desk, given what it keeps itself. -/
structure Serves (step : τ → ι → τ × List ο) (view : τ → Desk σ ρ) (policy : τ → Policy σ ρ α)
    (ask : ι → Ask σ ρ) (reply : ο → Reply σ α) (parting : α → Bool) (inv : τ → Prop) : Prop where
  keeps : ∀ t i, inv t → (view t).Sound → (view t).Settled (policy t) → inv (step t i).1
  turn : ∀ t i, inv t → (view t).Sound → (view t).Settled (policy t) →
    ∃ P : Policy σ ρ α, P.parting = parting ∧
      Turn P (policy t) (policy (step t i).1) (view t) (ask i) ((step t i).2.map reply)
        (view (step t i).1)

variable {step : τ → ι → τ × List ο} {view : τ → Desk σ ρ} {policy : τ → Policy σ ρ α}
  {ask : ι → Ask σ ρ} {reply : ο → Reply σ α} {parting : α → Bool} {inv : τ → Prop}

def exchange (step : τ → ι → τ × List ο) (ask : ι → Ask σ ρ) (reply : ο → Reply σ α) (t : τ)
    (inputs : List ι) : List (Ask σ ρ × List (Reply σ α)) :=
  (trace step t inputs).map fun p => (ask p.1, p.2.map reply)

omit [DecidableEq σ] in
theorem exchange_concat (t : τ) (front : List ι) (i : ι) :
    exchange step ask reply t (front ++ [i]) = exchange step ask reply t front ++
      [(ask i, (step (after step t front) i).2.map reply)] := by
  rw [exchange, trace_append, List.map_append]
  rfl

omit [DecidableEq σ] in
theorem exchange_arrivals (t : τ) (inputs : List ι) :
    (exchange step ask reply t inputs).map (presence fun _ => false) =
      inputs.map fun i => arrival (ask i) := by
  induction inputs generalizing t with
  | nil => rfl
  | cons i rest ih =>
      rw [exchange, trace, List.map_cons, List.map_cons, List.map_cons, presence_eq_arrival]
      exact congrArg _ (ih _)

omit [DecidableEq σ] in
theorem exchange_asked {t : τ} {inputs : List ι} {s : σ} {r : ρ}
    (h : (s, r) ∈ Ledger.asked (exchange step ask reply t inputs)) :
    ∃ i ∈ inputs, ask i = .read s r := by
  induction inputs generalizing t with
  | nil => simp [exchange, trace, Ledger.asked] at h
  | cons i rest ih =>
      rw [exchange, trace, List.map_cons, Ledger.asked, List.filterMap_cons] at h
      have hrest : (s, r) ∈ Ledger.asked (exchange step ask reply (step t i).1 rest) →
          ∃ j ∈ i :: rest, ask j = .read s r := by
        intro hin
        obtain ⟨j, hj, hask⟩ := ih hin
        exact ⟨j, List.mem_cons_of_mem i hj, hask⟩
      cases hask : ask i with
      | read s' r' =>
          simp only [hask, List.mem_cons] at h
          rcases h with hfirst | hin
          · obtain ⟨rfl, rfl⟩ := Prod.mk.inj hfirst
            exact ⟨i, List.mem_cons_self, hask⟩
          · exact hrest hin
      | _ =>
          simp only [hask] at h
          exact hrest h

/-- What holds of a machine after an exchange that began with an empty desk. -/
structure Stands (view : τ → Desk σ ρ) (policy : τ → Policy σ ρ α) (parting : α → Bool)
    (inv : τ → Prop) (events : List (Ask σ ρ × List (Reply σ α))) (t : τ) : Prop where
  inv : inv t
  sound : (view t).Sound
  settled : (view t).Settled (policy t)
  order : (view t).order = roster (events.map (presence parting))
  /-- The audit of the exchange goes through. -/
  audited : ∃ L, Ledger.audit events = some L ∧ (view t).Books L

theorem stands_new {t : τ} (hview : view t = new) (hinv : inv t) :
    Stands view policy parting inv [] t := by
  refine ⟨hinv, ?_, ?_, ?_, Ledger.new, rfl, ?_⟩
  · rw [hview]
    exact sound_new
  · rw [hview]
    exact settled_new _
  · rw [hview]
    rfl
  · rw [hview]
    exact books_new

theorem Serves.next (h : Serves step view policy ask reply parting inv)
    {events : List (Ask σ ρ × List (Reply σ α))} {t : τ}
    (ht : Stands view policy parting inv events t) (i : ι) :
    Stands view policy parting inv (events ++ [(ask i, (step t i).2.map reply)]) (step t i).1 := by
  obtain ⟨P, hparting, hturn⟩ := h.turn t i ht.inv ht.sound ht.settled
  obtain ⟨tail, htail, hreplies⟩ := hturn.replied
  refine ⟨h.keeps t i ht.inv ht.sound ht.settled, hturn.sound ht.sound,
    hturn.settled ht.sound ht.settled, ?_, ?_⟩
  · rw [List.map_append, List.map_singleton, roster_concat, ← ht.order, hturn.moves, hreplies,
      ← hparting]
    exact serve_order P (view t) (ask i) htail.other
  · obtain ⟨L, haudit, hbooks⟩ := ht.audited
    obtain ⟨M, hpost, hM⟩ := hbooks.serve ht.sound (Ledger.audit_accounts haudit) P hturn.late
      (ask i) htail
    refine ⟨M, ?_, ?_⟩
    · rw [Ledger.audit_concat, haudit, Option.bind_some, hreplies, hpost]
    · rw [hturn.moves]
      exact hM

/-- Every run of such a machine is accounted for. -/
theorem Serves.run (h : Serves step view policy ask reply parting inv) {t : τ}
    (hview : view t = new) (hinv : inv t) (inputs : List ι) :
    Stands view policy parting inv (exchange step ask reply t inputs) (after step t inputs) := by
  induction inputs using List.reverseRecOn with
  | nil => exact stands_new hview hinv
  | append_singleton front i ih =>
      rw [exchange_concat, after_concat]
      exact h.next ih i

/-- The whole exchange, balanced: each request was answered, gave way, was dropped or
waits, and each timer ended once or is armed. -/
theorem Stands.accounts {events : List (Ask σ ρ × List (Reply σ α))} {t : τ}
    (h : Stands view policy parting inv events t) :
    ∃ L : Ledger σ ρ α, Ledger.audit events = some L ∧
      L.Accounts (Ledger.asked events) (Ledger.expiries events) (Ledger.replies events) ∧
      ∀ s, (view t).kept s = (L.waiting s).map parked := by
  obtain ⟨L, haudit, hbooks⟩ := h.audited
  exact ⟨L, haudit, Ledger.audit_accounts haudit, hbooks.kept⟩

end Desk

end TautShape.Lib
