import TautShape.Lib.Serving
/-!
# A desk and its client over two pipes

A client writes its requests into one pipe and reads the replies from another, and a
server of held requests sits between them.  Each of the two goes at its own pace, and the
server is prompted by others too.  A `Link` is both processes with what is in the pipes,
and every schedule of their moves is a run of it.

Where the client asks about a stream again only after it was told, `Standing` is what
holds of every stream at every moment: what the client waits for is in exactly one place.
-/

namespace TautShape.Lib

/-- A process that reads one message after another until it stops. -/
inductive Party (κ φ : Type*) where
  | running (state : κ)
  | stopped (state : κ) (outcome : φ)

def Party.state {κ φ : Type*} : Party κ φ → κ
  | .running c => c
  | .stopped c _ => c

def Party.outcome {κ φ : Type*} : Party κ φ → Option φ
  | .running _ => none
  | .stopped _ f => some f

/-- Two processes, the pipes between them, and what each has read so far. -/
structure Link (κ φ τ ι ο : Type*) where
  client : Party κ φ
  up : List ι
  node : τ
  down : List ο
  fed : List ι
  taken : List ο

/-- What may happen next: the server or the client reads from its pipe, or somebody else
prompts the server. -/
inductive Move (ι : Type*) where
  | serve
  | prompt (i : ι)
  | hear

variable {κ φ τ ι ο σ ρ α : Type*}

namespace Link

variable (step : τ → ι → τ × List ο) (hear : κ → ο → Party κ φ × List ι)

def opening (client : Party κ φ × List ι) (t : τ) : Link κ φ τ ι ο :=
  ⟨client.1, client.2, t, [], [], []⟩

def feed (l : Link κ φ τ ι ο) (i : ι) : Link κ φ τ ι ο :=
  { l with
    node := (step l.node i).1
    down := l.down ++ (step l.node i).2
    fed := l.fed ++ [i] }

def serve (l : Link κ φ τ ι ο) : Link κ φ τ ι ο :=
  match l.up with
  | [] => l
  | i :: rest => { l with up := rest }.feed step i

/-- The client reads from its pipe, if it still runs and there is something in it. -/
def listen (l : Link κ φ τ ι ο) : Link κ φ τ ι ο :=
  match l.client, l.down with
  | .running c, o :: rest =>
      { l with
        client := (hear c o).1
        up := l.up ++ (hear c o).2
        down := rest
        taken := l.taken ++ [o] }
  | _, _ => l

def move (l : Link κ φ τ ι ο) : Move ι → Link κ φ τ ι ο
  | .serve => l.serve step
  | .prompt i => l.feed step i
  | .hear => l.listen hear

def run (l : Link κ φ τ ι ο) (moves : List (Move ι)) : Link κ φ τ ι ο :=
  moves.foldl (move step hear) l

variable {step hear}

theorem run_concat (l : Link κ φ τ ι ο) (front : List (Move ι)) (m : Move ι) :
    l.run step hear (front ++ [m]) = (l.run step hear front).move step hear m := by
  simp [run]

/-- What holds at first and is kept by each of the three moves holds after every schedule
whose prompts are allowed. -/
theorem run_induction {P : Link κ φ τ ι ο → Prop} {allowed : ι → Prop} {l : Link κ φ τ ι ο}
    (hl : P l) (hserve : ∀ l i rest, P l → l.up = i :: rest → P ({ l with up := rest }.feed step i))
    (hprompt : ∀ l i, P l → allowed i → P (l.feed step i))
    (hhear : ∀ l c o rest, P l → l.client = .running c → l.down = o :: rest →
      P { l with
          client := (hear c o).1, up := l.up ++ (hear c o).2, down := rest,
          taken := l.taken ++ [o] })
    {moves : List (Move ι)} (hmoves : ∀ i, .prompt i ∈ moves → allowed i) :
    P (l.run step hear moves) := by
  induction moves using List.reverseRecOn with
  | nil => exact hl
  | append_singleton front m ih =>
      have hold := ih fun i hi => hmoves i (List.mem_append_left _ hi)
      rw [run_concat]
      cases m with
      | serve =>
          rw [move, serve]
          split
          · exact hold
          · rename_i i rest hup
            exact hserve _ i rest hold hup
      | prompt i => exact hprompt _ i hold (hmoves i (by simp))
      | hear =>
          rw [move, listen]
          split
          · rename_i c o rest hclient hdown
            exact hhear _ c o rest hold hclient hdown
          · exact hold

def Reaches (step : τ → ι → τ × List ο) (hear : κ → ο → Party κ φ × List ι) (allowed : ι → Prop)
    (l l' : Link κ φ τ ι ο) : Prop :=
  ∃ moves, (∀ i, .prompt i ∈ moves → allowed i) ∧ l' = l.run step hear moves

section reaches

variable {allowed : ι → Prop} {l l' : Link κ φ τ ι ο}

theorem Reaches.move (h : Reaches step hear allowed l l') {m : Move ι}
    (hm : ∀ i, m = .prompt i → allowed i) :
    Reaches step hear allowed l (l'.move step hear m) := by
  obtain ⟨moves, hmoves, rfl⟩ := h
  refine ⟨moves ++ [m], fun i hi => ?_, (run_concat l moves m).symm⟩
  rcases List.mem_append.mp hi with hi | hi
  · exact hmoves i hi
  · exact hm i (List.mem_singleton.mp hi).symm

theorem Reaches.serve (h : Reaches step hear allowed l l') {i : ι} {rest : List ι}
    (hup : l'.up = i :: rest) :
    Reaches step hear allowed l ({ l' with up := rest }.feed step i) := by
  have hmove := h.move (m := .serve) (fun i hi => by simp at hi)
  rwa [Link.move, Link.serve, hup] at hmove

theorem Reaches.prompt (h : Reaches step hear allowed l l') {i : ι} (hi : allowed i) :
    Reaches step hear allowed l (l'.feed step i) :=
  h.move (m := .prompt i) fun j hj => by
    obtain rfl := Move.prompt.inj hj
    exact hi

theorem Reaches.listen (h : Reaches step hear allowed l l') {c : κ} {o : ο} {rest : List ο}
    (hc : l'.client = .running c) (hdown : l'.down = o :: rest) :
    Reaches step hear allowed l
      { l' with
        client := (hear c o).1, up := l'.up ++ (hear c o).2, down := rest,
        taken := l'.taken ++ [o] } := by
  have hmove := h.move (m := .hear) (fun i hi => by simp at hi)
  rwa [Link.move, Link.listen, hc, hdown] at hmove

end reaches

/-- The node has read only what came through the pipe or prompted it. -/
theorem run_fed {Q : ι → Prop} {l : Link κ φ τ ι ο} (hl : ∀ i ∈ l.fed, Q i)
    {moves : List (Move ι)}
    (hup : ∀ front, front <+: moves → ∀ i ∈ (l.run step hear front).up, Q i)
    (hmoves : ∀ i, .prompt i ∈ moves → Q i) : ∀ i ∈ (l.run step hear moves).fed, Q i := by
  induction moves using List.reverseRecOn with
  | nil => exact hl
  | append_singleton front m ih =>
      have hpast := List.prefix_append front [m]
      have hold := ih (fun front' hfront' => hup front' (hfront'.trans hpast))
        fun i hi => hmoves i (List.mem_append_left _ hi)
      rw [run_concat]
      cases m with
      | serve =>
          have hpipe := hup front hpast
          rw [move, serve]
          split
          · exact hold
          · rename_i i rest hfront
            intro j hj
            rcases List.mem_append.mp hj with hj | hj
            · exact hold j hj
            · rw [List.mem_singleton.mp hj]
              exact hpipe i (by simp [hfront])
      | prompt i =>
          intro j hj
          rcases List.mem_append.mp hj with hj | hj
          · exact hold j hj
          · rw [List.mem_singleton.mp hj]
            exact hmoves i (by simp)
      | hear =>
          rw [move, listen]
          split
          · exact hold
          · exact hold

/-- The node is where what it has read leads, and what it put out is read or on its way. -/
structure Recorded (step : τ → ι → τ × List ο) (t : τ) (l : Link κ φ τ ι ο) : Prop where
  node : l.node = after step t l.fed
  sent : (outputs step t l.fed).flatten = l.taken ++ l.down

theorem Recorded.feed {t : τ} {l : Link κ φ τ ι ο} (h : l.Recorded step t) (i : ι) :
    (l.feed step i).Recorded step t := by
  refine ⟨?_, ?_⟩
  · show (step l.node i).1 = after step t (l.fed ++ [i])
    rw [after_concat, h.node]
  · show (outputs step t (l.fed ++ [i])).flatten = l.taken ++ (l.down ++ (step l.node i).2)
    rw [outputs_append, List.flatten_append, h.sent, h.node]
    simp [outputs]

theorem Recorded.listen {t : τ} {l : Link κ φ τ ι ο} (h : l.Recorded step t) {client : Party κ φ}
    {up : List ι} {o : ο} {rest : List ο} (hdown : l.down = o :: rest) :
    Recorded step t { l with client := client, up := up, down := rest, taken := l.taken ++ [o] } := by
  refine ⟨h.node, ?_⟩
  rw [h.sent, hdown]
  simp

theorem run_recorded (client : Party κ φ × List ι) (t : τ) (moves : List (Move ι)) :
    ((opening client t).run step hear moves).Recorded step t := by
  refine run_induction (P := Recorded step t) ⟨rfl, rfl⟩
    (fun l i rest h _ => ?_) (fun l i h (_ : True) => h.feed i) (fun l c o rest h _ hdown => ?_)
    fun _ _ => trivial
  · exact Recorded.feed (l := { l with up := rest }) ⟨h.node, h.sent⟩ i
  · exact h.listen hdown

end Link

/-! ## What a turn does to one stream -/

def Ask.request? [DecidableEq σ] (s : σ) : Ask σ ρ → Option ρ
  | .read s' r => if s' = s then some r else none
  | _ => none

namespace Desk

variable [DecidableEq σ] {P : Policy σ ρ α} {d : Desk σ ρ}

/-- The request that a stream has after an ask, unless it is told something. -/
def pending (d : Desk σ ρ) (s : σ) (ask : Ask σ ρ) : Option ρ :=
  (ask.request? s).or ((d.kept s).map Kept.request)

/-- A stream that does not leave is told one answer to its request, as the server may say
it, or has its request left. -/
inductive Passed (tells : ρ → α → Prop) (d : Desk σ ρ) (s : σ) (ask : Ask σ ρ)
    (result : Desk σ ρ × List (Reply σ α)) : Prop
  | told (r : ρ) (a : α) (hpending : d.pending s ask = some r) (htells : tells r a)
      (htold : told s result.2 = [a]) (hkept : result.1.kept s = none)
  | untold (htold : told s result.2 = [])
      (hkept : (result.1.kept s).map Kept.request = d.pending s ask)

theorem Passed.mono {tells tells' : ρ → α → Prop} {d : Desk σ ρ} {s : σ} {ask : Ask σ ρ}
    {result : Desk σ ρ × List (Reply σ α)} (h : Passed tells d s ask result)
    (htells : ∀ r a, tells r a → tells' r a) : Passed tells' d s ask result := by
  cases h with
  | told r a hpending hsaid htold hkept => exact .told r a hpending (htells r a hsaid) htold hkept
  | untold htold hkept => exact .untold htold hkept

theorem passed_of_kept {tells : ρ → α → Prop} {d : Desk σ ρ} {ask : Ask σ ρ}
    {result : Desk σ ρ × List (Reply σ α)} {s : σ} (hask : ask.request? s = none)
    (htold : told s result.2 = []) (hkept : result.1.kept s = d.kept s) :
    Passed tells d s ask result :=
  .untold htold (by rw [hkept, pending, hask, Option.none_or])

/-- What a stream is told by a sweep that goes to each stream once. -/
theorem told_flatMap {f : σ → List (Reply σ α)} {s : σ} {keys : List σ} (hnodup : keys.Nodup)
    (hown : ∀ s', s' ≠ s → told s (f s') = []) :
    told s (keys.flatMap f) = if s ∈ keys then told s (f s) else [] := by
  induction keys with
  | nil => rfl
  | cons key rest ih =>
      rw [List.nodup_cons] at hnodup
      rw [List.flatMap_cons, told_append, ih hnodup.2]
      by_cases heq : key = s
      · subst heq
        rw [if_neg hnodup.1, if_pos List.mem_cons_self, List.append_nil]
      · rw [hown key heq, List.nil_append]
        simp only [List.mem_cons, Ne.symm heq, false_or]

def Policy.tells (P : Policy σ ρ α) (s : σ) (r : ρ) (a : α) : Prop :=
  P.answer s r = some a ∨ P.late s r = some a

theorem read_passed (P : Policy σ ρ α) (d : Desk σ ρ) (s s' : σ) (r : ρ) :
    Passed (Policy.tells P s) d s (.read s' r) (d.read P s' r) := by
  by_cases heq : s' = s
  · subst heq
    have hpending : d.pending s' (.read s' r) = some r := by simp [pending, Ask.request?]
    cases hanswer : P.answer s' r with
    | some a =>
        refine .told r a hpending (.inl hanswer) ?_ ?_
        · rw [read, hanswer, told_append, told_giveBack, List.nil_append, told_answer, if_pos rfl]
        · simp [read, hanswer]
    | none =>
        cases htimed : P.timed r with
        | true =>
            rw [read_of_timed hanswer htimed]
            refine .untold ?_ (by simp [hpending])
            rw [told_append, told_giveBack]
            rfl
        | false =>
            rw [read_of_untimed hanswer htimed]
            exact .untold (told_giveBack s' _) (by simp [hpending])
  · have hrequest : (Ask.read s' r : Ask σ ρ).request? s = none := if_neg heq
    refine passed_of_kept hrequest ?_ ?_
    · unfold read
      split
      · rw [told_append, told_giveBack, List.nil_append, told_answer, if_neg heq]
      · simp only
        split
        · rw [told_append, told_giveBack]
          rfl
        · exact told_giveBack s _
    · unfold read
      split
      · simp [Ne.symm heq]
      · simp only
        split <;> simp [Ne.symm heq]

theorem wake_passed (h : d.Sound) (P : Policy σ ρ α) (s : σ) : Passed (Policy.tells P s) d s .wake (d.wake P) := by
  have htold := told_wake h P s
  have hkept := wake_kept h P s
  have hpending : d.pending s .wake = (d.kept s).map Kept.request := Option.none_or
  cases hk : d.kept s with
  | none =>
      rw [hk] at htold hkept
      exact .untold htold (by rw [hkept, hpending, hk]; rfl)
  | some k =>
      rw [hk, Option.bind_some] at htold
      rw [hk, turnOf] at hkept
      cases hanswer : P.answer s k.request with
      | none =>
          rw [hanswer] at htold hkept
          exact .untold htold (by rw [hkept, hpending, hk])
      | some a =>
          rw [hanswer] at htold hkept
          exact .told k.request a (by rw [hpending, hk, Option.map_some]) (.inl hanswer) htold hkept

theorem expire_passed (h : d.Sound) (P : Policy σ ρ α)
    (hlate : ∀ s k, d.kept s = some k → (P.late s k.request).isSome = true) (s : σ) (t : Nat) :
    Passed (Policy.tells P s) d s (.expire t) (d.expire P t) := by
  by_cases hany : ∃ s' k, d.kept s' = some k ∧ k.timer = some t
  · obtain ⟨s', k, hk, ht⟩ := hany
    obtain ⟨a, ha⟩ := Option.isSome_iff_exists.mp (hlate s' k hk)
    rw [expire_of_kept h P hk ht, ha, Option.toList_some, List.map_singleton]
    by_cases heq : s' = s
    · subst heq
      refine .told k.request a ?_ (.inr ha) ?_ (by simp)
      · simp [pending, Ask.request?, hk]
      · rw [told_answer, if_pos rfl]
    · refine passed_of_kept rfl ?_ (by simp [Ne.symm heq])
      rw [told_answer, if_neg heq]
  · rw [expire_of_not_kept P fun s' k hk ht => hany ⟨s', k, hk, ht⟩]
    exact passed_of_kept rfl rfl rfl

theorem serve_passed (h : d.Sound) (P : Policy σ ρ α)
    (hlate : ∀ s k, d.kept s = some k → (P.late s k.request).isSome = true) (s : σ)
    {ask : Ask σ ρ} (hask : ∀ s', ask ≠ .leave s') : Passed (Policy.tells P s) d s ask (d.serve P ask) := by
  cases ask with
  | read s' r => exact read_passed P d s s' r
  | leave s' => exact absurd rfl (hask s')
  | expire t => exact expire_passed h P hlate s t
  | wake => exact wake_passed h P s
  | quiet => exact passed_of_kept rfl rfl rfl

theorem Turn.passed {before behind : Policy σ ρ α} {ask : Ask σ ρ} {replies : List (Reply σ α)}
    {d' : Desk σ ρ} (h : Turn P before behind d ask replies d') (hsound : d.Sound) (s : σ)
    (hask : ∀ s', ask ≠ .leave s') : Passed (Policy.tells P s) d s ask (d', replies) := by
  obtain ⟨tail, htail, hreplies⟩ := h.replied
  have htold : told s replies = told s (d.serve P ask).2 := by
    rw [hreplies, told_append, told_other s htail.other, List.append_nil]
  rw [h.moves]
  cases serve_passed hsound P h.late s hask with
  | told r a hpending hanswer hsaid hkept => exact .told r a hpending hanswer (htold.trans hsaid) hkept
  | untold hsaid hkept => exact .untold (htold.trans hsaid) hkept

end Desk

/-! ## One conversation per stream -/

/-- Where the one request of a stream is: on its way, at the desk, or answered on the way
back.  A stream that the client does not wait for is in none of these places. -/
inductive Standing (may : ρ → Prop) (right : ρ → α → Prop) :
    Option ρ → List ρ → Option (Kept ρ) → List α → Prop
  | quiet : Standing may right none [] none []
  | asked (r : ρ) (h : may r) : Standing may right (some r) [r] none []
  | held (k : Kept ρ) (h : may k.request) : Standing may right (some k.request) [] (some k) []
  | answered (r : ρ) (a : α) (h : right r a) : Standing may right (some r) [] none [a]

/-- What a client that does not wait for a stream may do: nothing, or ask once. -/
inductive Renews (may : ρ → Prop) : Option ρ → Option ρ → List ρ → Prop
  | same (e : Option ρ) : Renews may e e []
  | asks (r : ρ) (h : may r) : Renews may none (some r) [r]

namespace Standing

variable {may may' : ρ → Prop} {right right' : ρ → α → Prop} {e e' : Option ρ} {ups more : List ρ}
  {kept kept' : Option (Kept ρ)} {downs : List α}

theorem mono (h : Standing may right e ups kept downs) (hmay : ∀ r, may r → may' r)
    (hright : ∀ r a, right r a → right' r a) : Standing may' right' e ups kept downs := by
  cases h with
  | quiet => exact .quiet
  | asked r h => exact .asked r (hmay r h)
  | held k h => exact .held k (hmay _ h)
  | answered r a h => exact .answered r a (hright r a h)

theorem renew (h : Standing may right e ups kept downs) (hrenews : Renews may e e' more) :
    Standing may right e' (ups ++ more) kept downs := by
  cases hrenews with
  | same =>
      rw [List.append_nil]
      exact h
  | asks r hr =>
      cases h with
      | quiet => exact .asked r hr

theorem hear {a : α} {rest : List α} (h : Standing may right e ups kept (a :: rest)) :
    ∃ r, e = some r ∧ right r a ∧ Standing may right none ups kept rest := by
  cases h with
  | answered r a h => exact ⟨r, rfl, h, .quiet⟩

theorem pass [DecidableEq σ] {tells : ρ → α → Prop} {d d' : Desk σ ρ} {s : σ} {ask : Ask σ ρ}
    {replies : List (Reply σ α)}
    (h : Standing may right e ((ask.request? s).toList ++ ups) (d.kept s) downs)
    (hpassed : Desk.Passed tells d s ask (d', replies))
    (hright : ∀ r a, may r → tells r a → right r a) :
    Standing may right e ups (d'.kept s) (downs ++ Desk.told s replies) := by
  -- What was asked is the head of the pipe or lies at the desk.
  have hplace : (e = none ∧ ups = [] ∧ d.pending s ask = none ∧ downs = []) ∨
      (∃ r, e = some r ∧ ups = [] ∧ d.pending s ask = some r ∧ downs = [] ∧ may r) ∨
      (d.pending s ask = none ∧ Standing may right e ups none downs) := by
    generalize hk : d.kept s = k at h
    generalize hall : (ask.request? s).toList ++ ups = all at h
    unfold Desk.pending
    rw [hk]
    cases hrequest : ask.request? s with
    | none =>
        rw [hrequest, Option.toList_none, List.nil_append] at hall
        subst hall
        cases h with
        | quiet => exact .inl ⟨rfl, rfl, rfl, rfl⟩
        | asked r hr => exact .inr (.inr ⟨rfl, .asked r hr⟩)
        | held k hr => exact .inr (.inl ⟨k.request, rfl, rfl, rfl, rfl, hr⟩)
        | answered r a hr => exact .inr (.inr ⟨rfl, .answered r a hr⟩)
    | some r =>
        rw [hrequest, Option.toList_some, List.singleton_append] at hall
        subst hall
        cases h with
        | asked r hr => exact .inr (.inl ⟨r, rfl, rfl, rfl, rfl, hr⟩)
  cases hpassed with
  | told r a hpending hanswer htold hkept =>
      rw [htold, hkept]
      rcases hplace with ⟨-, -, hnone, -⟩ | ⟨r', rfl, rfl, hsome, rfl, hr⟩ | ⟨hnone, -⟩
      · simp [hnone] at hpending
      · obtain rfl := Option.some.inj (hsome.symm.trans hpending)
        exact .answered _ a (hright _ a hr hanswer)
      · simp [hnone] at hpending
  | untold htold hkept =>
      rw [htold, List.append_nil]
      rcases hplace with ⟨rfl, rfl, hnone, rfl⟩ | ⟨r, rfl, rfl, hsome, rfl, hr⟩ | ⟨hnone, hsame⟩
      · rw [Option.map_eq_none_iff.mp (hkept.trans hnone)]
        exact .quiet
      · obtain ⟨k, hk, rfl⟩ := Option.map_eq_some_iff.mp (hkept.trans hsome)
        rw [hk]
        exact .held k hr
      · rw [Option.map_eq_none_iff.mp (hkept.trans hnone)]
        exact hsame

/-- A request that is on its way is the only one. -/
theorem first {r : ρ} (h : Standing may right e (r :: ups) kept downs) :
    e = some r ∧ ups = [] ∧ downs = [] := by
  cases h with
  | asked r h => exact ⟨rfl, rfl, rfl⟩

/-- One request is in one place. -/
theorem count (h : Standing may right e ups kept downs) :
    ups.length + kept.toList.length + downs.length = e.toList.length := by
  cases h <;> rfl

/-- Where nothing is under way, what is waited for lies at the desk. -/
theorem at_desk (h : Standing may right e [] kept []) : e = kept.map Kept.request := by
  cases h <;> rfl

end Standing

namespace Link

variable [DecidableEq σ] (step : τ → ι → τ × List ο) (hear : κ → ο → Party κ φ × List ι)
  (view : τ → Desk σ ρ) (ask : ι → Ask σ ρ) (reply : ο → Reply σ α)

def posts (s : σ) (ups : List ι) : List ρ := ups.filterMap fun i => (ask i).request? s

/-- A server passes every message that ends no stream, and what it says to a request that
may be made is right, given what it has read until then. -/
def Honest (t : τ) (may : List ι → σ → ρ → Prop) (right : List ι → σ → ρ → α → Prop) : Prop :=
  ∀ front i, (∀ s, ask i ≠ .leave s) → let n := after step t front
    ∀ s, Desk.Passed (fun r a => may (front ++ [i]) s r → right (front ++ [i]) s r a) (view n) s
      (ask i) (view (step n i).1, (step n i).2.map reply)

def RightOnce (right : List ι → σ → ρ → α → Prop) (fed : List ι) (s : σ) (r : ρ) (a : α) : Prop :=
  ∃ front, front <+: fed ∧ right front s r a

/-- What the client does with one message: it goes on waiting for the same streams but the
one that was told, and may ask about those that it does not wait for. -/
structure Goes (expects : κ → σ → Option ρ) (fair : Option φ → κ → Prop)
    (has : List ι → List ο → κ → Prop) (may : List ι → σ → ρ → Prop) (fed : List ι)
    (taken : List ο) (waits : σ → Option ρ) (result : Party κ φ × List ι) : Prop where
  stays : ∀ i ∈ result.2, ∀ s, ask i ≠ .leave s
  running : ∀ c, result.1 = .running c → (has fed taken c ∧ fair none c) ∧
    ∀ s, Renews (may fed s) (waits s) (expects c s) (posts ask s result.2)
  stopped : ∀ c f, result.1 = .stopped c f → has fed taken c ∧ fair (some f) c

/-- A client that asks about a stream again only after it was told. -/
structure Polls (expects : κ → σ → Option ρ) (fair : Option φ → κ → Prop)
    (has : List ι → List ο → κ → Prop) (may : List ι → σ → ρ → Prop)
    (right : List ι → σ → ρ → α → Prop) : Prop where
  later : ∀ fed more taken c, has fed taken c → has (fed ++ more) taken c
  still : ∀ fed more s r, may fed s r → may (fed ++ more) s r
  told : ∀ fed taken c o s a r, has fed taken c → reply o = .answer s a → expects c s = some r →
    RightOnce right fed s r a →
      Goes ask expects fair has may fed (taken ++ [o])
        (fun s' => if s' = s then none else expects c s') (hear c o)
  other : ∀ fed taken c o, has fed taken c → (∀ s a, reply o ≠ .answer s a) →
    Goes ask expects fair has may fed (taken ++ [o]) (expects c) (hear c o)

variable (expects : κ → σ → Option ρ) (fair : Option φ → κ → Prop) (has : List ι → List ο → κ → Prop)
  (may : List ι → σ → ρ → Prop) (right : List ι → σ → ρ → α → Prop)

structure Converses (l : Link κ φ τ ι ο) : Prop where
  stays : ∀ i ∈ l.up, ∀ s, ask i ≠ .leave s
  running : ∀ c, l.client = .running c → (has l.fed l.taken c ∧ fair none c) ∧
    ∀ s, Standing (may l.fed s) (RightOnce right l.fed s) (expects c s) (posts ask s l.up)
      ((view l.node).kept s) (Desk.told s (l.down.map reply))
  stopped : ∀ c f, l.client = .stopped c f → has l.fed l.taken c ∧ fair (some f) c

variable {step hear view ask reply expects fair has may right}

theorem honest_of_turns {t : τ} (h : ∀ front i, let n := after step t front
    (view n).Sound ∧ ∃ P before behind : Policy σ ρ α,
      Desk.Turn P before behind (view n) (ask i) ((step n i).2.map reply) (view (step n i).1) ∧
      ∀ s r a, may (front ++ [i]) s r → P.answer s r = some a ∨ P.late s r = some a →
        right (front ++ [i]) s r a) : Honest step view ask reply t may right := by
  intro front i hask n s
  obtain ⟨hsound, P, before, behind, hturn, hright⟩ := h front i
  exact (hturn.passed hsound s hask).mono fun r a htells hmay => hright s r a hmay htells

theorem Converses.known {l : Link κ φ τ ι ο}
    (h : Converses view ask reply expects fair has may right l) :
    has l.fed l.taken l.client.state := by
  cases hc : l.client with
  | running c => exact (h.running c hc).1.1
  | stopped c f => exact (h.stopped c f hc).1

omit [DecidableEq σ] in
theorem RightOnce.append {fed : List ι} {s : σ} {r : ρ} {a : α} (h : RightOnce right fed s r a)
    (more : List ι) : RightOnce right (fed ++ more) s r a := by
  obtain ⟨front, hfront, hright⟩ := h
  exact ⟨front, hfront.trans (List.prefix_append fed more), hright⟩

theorem posts_cons (s : σ) (i : ι) (rest : List ι) :
    posts ask s (i :: rest) = ((ask i).request? s).toList ++ posts ask s rest := by
  rw [posts, List.filterMap_cons, posts]
  cases (ask i).request? s <;> rfl

theorem posts_append (s : σ) (front back : List ι) :
    posts ask s (front ++ back) = posts ask s front ++ posts ask s back :=
  List.filterMap_append ..

theorem converses_opening {t : τ} (hview : view t = Desk.new) {client : Party κ φ × List ι}
    (h : Goes ask expects fair has may [] [] (fun _ => none) client) :
    Converses view ask reply expects fair has may right (opening client t : Link κ φ τ ι ο) := by
  refine ⟨h.stays, fun c hc => ?_, h.stopped⟩
  obtain ⟨hhas, hrenews⟩ := h.running c hc
  refine ⟨hhas, fun s => ?_⟩
  have hkept : (view t).kept s = none := by rw [hview]; rfl
  have hquiet : Standing (may [] s) (RightOnce right [] s) none [] ((view t).kept s)
      (Desk.told s (([] : List ο).map reply)) := by
    rw [hkept]
    exact .quiet
  exact hquiet.renew (hrenews s)

theorem converses_feed {t : τ} (hserver : Honest step view ask reply t may right)
    (hclient : Polls hear ask reply expects fair has may right)
    {l : Link κ φ τ ι ο} (hrecorded : l.Recorded step t) {i : ι} (hask : ∀ s, ask i ≠ .leave s)
    (hstays : ∀ i ∈ l.up, ∀ s, ask i ≠ .leave s)
    (hrunning : ∀ c, l.client = .running c → (has l.fed l.taken c ∧ fair none c) ∧
      ∀ s, Standing (may l.fed s) (RightOnce right l.fed s) (expects c s)
        (((ask i).request? s).toList ++ posts ask s l.up) ((view l.node).kept s)
        (Desk.told s (l.down.map reply)))
    (hstopped : ∀ c f, l.client = .stopped c f → has l.fed l.taken c ∧ fair (some f) c) :
    Converses view ask reply expects fair has may right (l.feed step i) := by
  refine ⟨hstays, fun c hc => ?_, fun c f hc => ?_⟩
  · obtain ⟨hhas, hstanding⟩ := hrunning c hc
    refine ⟨⟨hclient.later _ [i] _ c hhas.1, hhas.2⟩, fun s => ?_⟩
    have hpassed := hserver l.fed i hask s
    rw [← hrecorded.node] at hpassed
    have hold := (hstanding s).mono (fun r => hclient.still l.fed [i] s r)
      fun r a h => h.append [i]
    have hpass := hold.pass hpassed fun r a hmay htells =>
      ⟨l.fed ++ [i], List.prefix_rfl, htells hmay⟩
    rw [← Desk.told_append, ← List.map_append] at hpass
    exact hpass
  · obtain ⟨hhas, hfair⟩ := hstopped c f hc
    exact ⟨hclient.later _ [i] _ c hhas, hfair⟩

theorem Converses.serve {t : τ} (hserver : Honest step view ask reply t may right)
    (hclient : Polls hear ask reply expects fair has may right)
    {l : Link κ φ τ ι ο} (h : Converses view ask reply expects fair has may right l)
    (hrecorded : l.Recorded step t) {i : ι} {rest : List ι} (hup : l.up = i :: rest) :
    Converses view ask reply expects fair has may right ({ l with up := rest }.feed step i) := by
  refine converses_feed (l := { l with up := rest }) hserver hclient
    ⟨hrecorded.node, hrecorded.sent⟩ (h.stays i (by simp [hup])) (fun j hj => h.stays j ?_)
    (fun c hc => ?_) h.stopped
  · rw [hup]
    exact List.mem_cons_of_mem i hj
  · obtain ⟨hhas, hstanding⟩ := h.running c hc
    refine ⟨hhas, fun s' => ?_⟩
    have hold := hstanding s'
    rw [hup, posts_cons] at hold
    exact hold

theorem Converses.prompt {t : τ} (hserver : Honest step view ask reply t may right)
    (hclient : Polls hear ask reply expects fair has may right)
    {l : Link κ φ τ ι ο} (h : Converses view ask reply expects fair has may right l)
    (hrecorded : l.Recorded step t) {i : ι} (hleave : ∀ s, ask i ≠ .leave s)
    (hread : ∀ s r, ask i ≠ .read s r) :
    Converses view ask reply expects fair has may right (l.feed step i) := by
  refine converses_feed hserver hclient hrecorded hleave h.stays (fun c hc => ?_) h.stopped
  obtain ⟨hhas, hstanding⟩ := h.running c hc
  refine ⟨hhas, fun s => ?_⟩
  have hnone : (ask i).request? s = none := by
    cases hask : ask i with
    | read s' r => exact absurd hask (hread s' r)
    | _ => rfl
  rw [hnone, Option.toList_none, List.nil_append]
  exact hstanding s

theorem told_cons (s : σ) (r : Reply σ α) (rest : List (Reply σ α)) :
    Desk.told s (r :: rest) = Desk.told s [r] ++ Desk.told s rest :=
  Desk.told_append s [r] rest

theorem Converses.listen
    (hclient : Polls hear ask reply expects fair has may right) {l : Link κ φ τ ι ο}
    (h : Converses view ask reply expects fair has may right l) {c : κ} {o : ο} {rest : List ο}
    (hc : l.client = .running c) (hdown : l.down = o :: rest) :
    Converses view ask reply expects fair has may right
      { l with
        client := (hear c o).1, up := l.up ++ (hear c o).2, down := rest,
        taken := l.taken ++ [o] } := by
  obtain ⟨hhas, hstanding⟩ := h.running c hc
  rw [hdown] at hstanding
  -- The streams without the one that is told now.
  obtain ⟨waits, hgoes, hwaits⟩ : ∃ waits : σ → Option ρ,
      Goes ask expects fair has may l.fed (l.taken ++ [o]) waits (hear c o) ∧
      ∀ s, Standing (may l.fed s) (RightOnce right l.fed s) (waits s) (posts ask s l.up)
        ((view l.node).kept s) (Desk.told s (rest.map reply)) := by
    cases hreply : reply o with
    | answer s a =>
        have htold : ∀ s', Desk.told s' ((o :: rest).map reply) =
            (if s = s' then [a] else []) ++ Desk.told s' (rest.map reply) := by
          intro s'
          rw [List.map_cons, told_cons, hreply, Desk.told_answer]
        have hfirst := hstanding s
        rw [htold s, if_pos rfl, List.singleton_append] at hfirst
        obtain ⟨r, hr, hright, hquiet⟩ := hfirst.hear
        refine ⟨_, hclient.told _ _ c o s a r hhas.1 hreply hr hright, fun s' => ?_⟩
        by_cases heq : s' = s
        · subst heq
          rw [if_pos rfl]
          exact hquiet
        · have hother := hstanding s'
          rw [htold s', if_neg (Ne.symm heq), List.nil_append] at hother
          rw [if_neg heq]
          exact hother
    | _ =>
        refine ⟨_, hclient.other _ _ c o hhas.1 (by simp [hreply]), fun s' => ?_⟩
        have hother := hstanding s'
        rw [List.map_cons, told_cons, hreply] at hother
        exact hother
  refine ⟨fun i hi => ?_, fun c' hc' => ?_, hgoes.stopped⟩
  · rcases List.mem_append.mp hi with hi | hi
    · exact h.stays i hi
    · exact hgoes.stays i hi
  · obtain ⟨hhas', hrenews⟩ := hgoes.running c' hc'
    refine ⟨hhas', fun s => ?_⟩
    show Standing _ _ _ (posts ask s (l.up ++ (hear c o).2)) _ _
    rw [posts_append]
    exact (hwaits s).renew (hrenews s)

/-- **The conversation.**  Whatever the pace of the two processes and whatever else prompts
the server, each stream that the client waits for is in one place and no other stream is in
any, and the client stops only as it may. -/
theorem run_converses {t : τ} (hview : view t = Desk.new)
    (hserver : Honest step view ask reply t may right)
    (hclient : Polls hear ask reply expects fair has may right) {client : Party κ φ × List ι}
    (hopening : Goes ask expects fair has may [] [] (fun _ => none) client) {moves : List (Move ι)}
    (hmoves : ∀ i, .prompt i ∈ moves → (∀ s, ask i ≠ .leave s) ∧ ∀ s r, ask i ≠ .read s r) :
    Converses view ask reply expects fair has may right ((opening client t).run step hear moves) := by
  suffices h : ((opening client t).run step hear moves).Recorded step t ∧
      Converses view ask reply expects fair has may right ((opening client t).run step hear moves) from
    h.2
  refine run_induction (P := fun l => l.Recorded step t ∧
      Converses view ask reply expects fair has may right l)
    ⟨⟨rfl, rfl⟩, converses_opening hview hopening⟩ (fun l i rest h hup => ⟨?_, ?_⟩)
    (fun l i h hi => ⟨h.1.feed i, ?_⟩) (fun l c o rest h hc hdown => ⟨?_, ?_⟩) hmoves
  · exact Recorded.feed (l := { l with up := rest }) ⟨h.1.node, h.1.sent⟩ i
  · exact h.2.serve hserver hclient h.1 hup
  · exact h.2.prompt hserver hclient h.1 hi.1 hi.2
  · exact h.1.listen hdown
  · exact h.2.listen hclient hc hdown

end Link

end TautShape.Lib
