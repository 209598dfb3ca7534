import TautShape.Log.Types
/-!
# The session table

One entry for each live stream instance with its held read, and two indices over
the held reads: by creation rank and by timer.  `heldOf` is what the rest of the
engine sees of the table, and `Table.Wf` says that the indices agree with it.
-/

namespace TautShape.Log

open TautShape.Lib

structure HeldRead where
  cursor : Cursor
  limits : Limits
  timer : Option TimerToken
deriving DecidableEq, Repr

structure Entry where
  created : Nat
  held : Option HeldRead
  watermark : Nat
deriving DecidableEq, Repr

structure Table where
  entries : BTreeMap StreamId Entry
  nextRank : Nat
  heldOrder : BTreeMap Nat StreamId
  timerIndex : BTreeMap TimerToken StreamId

namespace Table

def new : Table where
  entries := ∅
  nextRank := 0
  heldOrder := ∅
  timerIndex := ∅

def len (t : Table) : Nat := t.entries.size

def getOrCreate (t : Table) (id : StreamId) : Table :=
  if t.entries.contains id then
    t
  else
    { t with
      nextRank := t.nextRank + 1
      entries := t.entries.insert id ⟨t.nextRank, none, 0⟩ }

/-- The write of `entry.watermark` through `get_mut`. -/
def setWatermark (t : Table) (id : StreamId) (watermark : Nat) : Table :=
  match t.entries[id]? with
  | none => t
  | some entry => { t with entries := t.entries.insert id { entry with watermark := watermark } }

def unindex (t : Table) (created : Nat) (held : HeldRead) : Table :=
  { t with
    heldOrder := t.heldOrder.erase created
    timerIndex := match held.timer with
      | none => t.timerIndex
      | some token => t.timerIndex.erase token }

def remove (t : Table) (id : StreamId) : Table × Option Entry :=
  match t.entries[id]? with
  | none => (t, none)
  | some entry =>
      let removed := { t with entries := t.entries.erase id }
      match entry.held with
      | none => (removed, some entry)
      | some held => (removed.unindex entry.created held, some entry)

def minWatermark (t : Table) : Option Nat :=
  (t.entries.toList.map fun p => p.2.watermark).min?

/-- The source panics on a stream without an entry; the engine never asks for one. -/
def setHeld (t : Table) (id : StreamId) (held : HeldRead) : Table :=
  match t.entries[id]? with
  | none => t
  | some entry =>
      { t with
        timerIndex := match held.timer with
          | none => t.timerIndex
          | some token => t.timerIndex.insert token id
        heldOrder := t.heldOrder.insert entry.created id
        entries := t.entries.insert id { entry with held := some held } }

def clearHeld (t : Table) (id : StreamId) : Table × Option HeldRead :=
  match t.entries[id]? with
  | none => (t, none)
  | some entry =>
      match entry.held with
      | none => (t, none)
      | some held =>
          (({ t with entries := t.entries.insert id { entry with held := none } }).unindex
            entry.created held, some held)

def heldInCreationOrder (t : Table) : List StreamId := t.heldOrder.toList.map Prod.snd

def findByTimer (t : Table) (token : TimerToken) : Option StreamId := t.timerIndex[token]?

/-! ## The held reads -/

def heldOf (t : Table) (id : StreamId) : Option HeldRead :=
  t.entries[id]?.bind Entry.held

/-- The indices hold exactly the held reads, and no two streams share a rank. -/
structure Wf (t : Table) : Prop where
  created_lt : ∀ (id : StreamId) (e : Entry), t.entries[id]? = some e → e.created < t.nextRank
  created_inj : ∀ (id id' : StreamId) (e e' : Entry), t.entries[id]? = some e →
    t.entries[id']? = some e' → e.created = e'.created → id = id'
  order_iff : ∀ (rank : Nat) (id : StreamId), t.heldOrder[rank]? = some id ↔
    ∃ e, t.entries[id]? = some e ∧ e.created = rank ∧ e.held.isSome = true
  timer_iff : ∀ (token : TimerToken) (id : StreamId), t.timerIndex[token]? = some id ↔
    ∃ held, t.heldOf id = some held ∧ held.timer = some token

theorem wf_new : new.Wf := by
  constructor <;> simp [new, heldOf]

theorem Wf.timer_inj {t : Table} (h : t.Wf) {id id' : StreamId} {held held' : HeldRead}
    {token : TimerToken} (hid : t.heldOf id = some held) (hid' : t.heldOf id' = some held')
    (ht : held.timer = some token) (ht' : held'.timer = some token) : id = id' := by
  have hindex := (h.timer_iff token id).mpr ⟨held, hid, ht⟩
  rw [(h.timer_iff token id').mpr ⟨held', hid', ht'⟩] at hindex
  exact (Option.some.inj hindex).symm

theorem Wf.mem_heldInCreationOrder {t : Table} (h : t.Wf) (id : StreamId) :
    id ∈ t.heldInCreationOrder ↔ (t.heldOf id).isSome = true := by
  simp only [heldInCreationOrder, List.mem_map, Prod.exists, exists_eq_right,
    Std.ExtTreeMap.mem_toList_iff_getElem?_eq_some, h.order_iff]
  constructor
  · rintro ⟨rank, e, he, -, hheld⟩
    simpa [heldOf, he] using hheld
  · intro hheld
    cases he : t.entries[id]? with
    | none => simp [heldOf, he] at hheld
    | some e => exact ⟨e.created, e, rfl, rfl, by simpa [heldOf, he] using hheld⟩

theorem Wf.heldInCreationOrder_nodup {t : Table} (h : t.Wf) : t.heldInCreationOrder.Nodup := by
  refine List.Nodup.map_on ?_ (ascending_toList t.heldOrder).nodup
  rintro ⟨rank, id⟩ hmem ⟨rank', id'⟩ hmem' heq
  rw [Std.ExtTreeMap.mem_toList_iff_getElem?_eq_some, h.order_iff] at hmem hmem'
  obtain ⟨e, he, hrank, -⟩ := hmem
  obtain ⟨e', he', hrank', -⟩ := hmem'
  simp only at heq he he' hrank hrank'
  subst heq
  obtain rfl : e = e' := by simpa [he] using he'
  rw [← hrank, ← hrank']

/-! ## What each operation does to the held reads -/

@[simp] theorem heldOf_getOrCreate (t : Table) (id id' : StreamId) :
    (t.getOrCreate id).heldOf id' = t.heldOf id' := by
  unfold getOrCreate
  split
  · rfl
  · rename_i habsent
    simp only [heldOf, getElem?_insert]
    split
    · rename_i heq
      subst heq
      have hnone : t.entries[id]? = none :=
        Std.ExtTreeMap.getElem?_eq_none (by simpa using habsent)
      simp [hnone]
    · rfl

theorem mem_getOrCreate (t : Table) (id : StreamId) :
    ∃ e, (t.getOrCreate id).entries[id]? = some e := by
  unfold getOrCreate
  split
  · rename_i hmem
    exact exists_getElem?_of_mem (by simpa using hmem)
  · exact ⟨_, Std.ExtTreeMap.getElem?_insert_self⟩

theorem Wf.getOrCreate {t : Table} (h : t.Wf) (id : StreamId) : (t.getOrCreate id).Wf := by
  have hheldOf := t.heldOf_getOrCreate id
  unfold Table.getOrCreate at hheldOf ⊢
  split
  · exact h
  · rename_i habsent
    rw [if_neg habsent] at hheldOf
    have hnone : t.entries[id]? = none :=
      Std.ExtTreeMap.getElem?_eq_none (by simpa using habsent)
    have hlookup : ∀ (id' : StreamId) (e : Entry),
        (t.entries.insert id ⟨t.nextRank, none, 0⟩)[id']? = some e →
          (id = id' ∧ e = ⟨t.nextRank, none, 0⟩) ∨ (id ≠ id' ∧ t.entries[id']? = some e) := by
      intro id' e he
      rw [getElem?_insert] at he
      split at he
      · rename_i heq
        exact .inl ⟨heq, (Option.some.inj he).symm⟩
      · rename_i hne
        exact .inr ⟨hne, he⟩
    refine ⟨?_, ?_, ?_, ?_⟩
    · intro id' e he
      rcases hlookup id' e he with ⟨-, rfl⟩ | ⟨-, hold⟩
      · exact Nat.lt_succ_self _
      · exact (h.created_lt id' e hold).trans (Nat.lt_succ_self _)
    · intro a b e e' he he' hcreated
      rcases hlookup a e he with ⟨rfl, rfl⟩ | ⟨-, hold⟩ <;>
        rcases hlookup b e' he' with ⟨rfl, rfl⟩ | ⟨-, hold'⟩
      · rfl
      · have hlt := h.created_lt b e' hold'
        simp only at hcreated
        omega
      · have hlt := h.created_lt a e hold
        simp only at hcreated
        omega
      · exact h.created_inj a b e e' hold hold' hcreated
    · intro rank id'
      rw [h.order_iff]
      simp only [getElem?_insert]
      constructor
      · rintro ⟨e, he, hrank, hheld⟩
        have hne : id ≠ id' := by
          rintro rfl
          simp [hnone] at he
        exact ⟨e, by rwa [if_neg hne], hrank, hheld⟩
      · rintro ⟨e, he, hrank, hheld⟩
        rcases hlookup id' e (by rwa [getElem?_insert]) with ⟨-, rfl⟩ | ⟨-, hold⟩
        · simp at hheld
        · exact ⟨e, hold, hrank, hheld⟩
    · intro token id'
      rw [hheldOf]
      exact h.timer_iff token id'

theorem Wf.order_at {t : Table} (h : t.Wf) {id : StreamId} {entry : Entry}
    (he : t.entries[id]? = some entry) :
    t.heldOrder[entry.created]? = if entry.held.isSome = true then some id else none := by
  split
  · rename_i hheld
    exact (h.order_iff _ _).mpr ⟨entry, he, rfl, hheld⟩
  · rename_i hnone
    refine Option.eq_none_iff_forall_ne_some.mpr fun id' hid' => ?_
    obtain ⟨e, he', hcreated, hheld⟩ := (h.order_iff _ _).mp hid'
    obtain rfl := h.created_inj id' id e entry he' he hcreated
    obtain rfl : entry = e := by simpa [he] using he'
    exact hnone hheld

theorem Wf.replace {t t' : Table} (h : t.Wf) {id : StreamId} {entry : Entry}
    (he : t.entries[id]? = some entry) (entry' : Entry) (hcreated : entry'.created = entry.created)
    (hentries : t'.entries = t.entries.insert id entry') (hrank : t'.nextRank = t.nextRank)
    (horder : ∀ rank : Nat, t'.heldOrder[rank]? = if entry.created = rank then
      (if entry'.held.isSome = true then some id else none) else t.heldOrder[rank]?)
    (htimer : ∀ (token : TimerToken) (id' : StreamId), t'.timerIndex[token]? = some id' ↔
      (id' = id ∧ ∃ held, entry'.held = some held ∧ held.timer = some token) ∨
        (id' ≠ id ∧ t.timerIndex[token]? = some id')) : t'.Wf := by
  have hlookup : ∀ id' : StreamId,
      t'.entries[id']? = if id = id' then some entry' else t.entries[id']? := by
    intro id'
    rw [hentries, getElem?_insert]
  -- each entry has the rank of the old entry in its place
  have hold : ∀ (id' : StreamId) (e : Entry), t'.entries[id']? = some e →
      ∃ e₀, t.entries[id']? = some e₀ ∧ e₀.created = e.created := by
    intro id' e he'
    rw [hlookup] at he'
    split at he'
    · rename_i heq
      subst heq
      obtain rfl := Option.some.inj he'
      exact ⟨entry, he, hcreated.symm⟩
    · exact ⟨e, he', rfl⟩
  constructor
  case created_lt =>
    intro id' e he'
    obtain ⟨e₀, he₀, heq⟩ := hold id' e he'
    rw [hrank, ← heq]
    exact h.created_lt id' e₀ he₀
  case created_inj =>
    intro a b e e' ha hb hcreated'
    obtain ⟨e₀, he₀, heq⟩ := hold a e ha
    obtain ⟨e₁, he₁, heq'⟩ := hold b e' hb
    exact h.created_inj a b e₀ e₁ he₀ he₁ (by rw [heq, heq', hcreated'])
  case order_iff =>
    intro rank id'
    rw [horder]
    constructor
    · intro hsome
      split at hsome
      · rename_i hrank'
        split at hsome
        · rename_i hheld
          obtain rfl := Option.some.inj hsome
          exact ⟨entry', by rw [hlookup, if_pos rfl], hcreated.trans hrank', hheld⟩
        · simp at hsome
      · rename_i hne
        obtain ⟨e, he', hrank', hheld⟩ := (h.order_iff rank id').mp hsome
        refine ⟨e, ?_, hrank', hheld⟩
        rw [hlookup, if_neg, he']
        rintro rfl
        obtain rfl : entry = e := by simpa [he] using he'
        exact hne hrank'
    · rintro ⟨e, he', hrank', hheld⟩
      rw [hlookup] at he'
      split at he'
      · rename_i heq
        subst heq
        obtain rfl := Option.some.inj he'
        rw [if_pos (hcreated.symm.trans hrank'), if_pos hheld]
      · rename_i hne
        rw [if_neg, h.order_iff]
        · exact ⟨e, he', hrank', hheld⟩
        · intro hsame
          exact hne (h.created_inj id id' entry e he he' (hsame.trans hrank'.symm))
  case timer_iff =>
    intro token id'
    rw [htimer, heldOf, hlookup]
    split
    · rename_i heq
      subst heq
      simp
    · rename_i hne
      rw [h.timer_iff, heldOf]
      simp [Ne.symm hne]

@[simp] theorem heldOf_setWatermark (t : Table) (id id' : StreamId) (watermark : Nat) :
    (t.setWatermark id watermark).heldOf id' = t.heldOf id' := by
  unfold setWatermark
  split
  · rfl
  · rename_i entry he
    simp only [heldOf, getElem?_insert]
    split
    · rename_i heq
      subst heq
      simp [he]
    · rfl

theorem Wf.setWatermark {t : Table} (h : t.Wf) (id : StreamId) (watermark : Nat) :
    (t.setWatermark id watermark).Wf := by
  unfold Table.setWatermark
  split
  · exact h
  · rename_i entry he
    refine h.replace he { entry with watermark := watermark } rfl rfl rfl ?_ ?_
    · intro rank
      split
      · rename_i hrank
        subst hrank
        exact h.order_at he
      · rfl
    · intro token id'
      simp only [h.timer_iff, heldOf]
      by_cases heq : id' = id
      · subst heq
        simp [he]
      · simp [heq]

/-! ### Releasing -/

theorem clearHeld_snd (t : Table) (id : StreamId) : (t.clearHeld id).2 = t.heldOf id := by
  unfold clearHeld heldOf
  split
  · rename_i he
    simp [he]
  · rename_i entry he
    split <;> rename_i hheld <;> simp [he, hheld]

theorem heldOf_clearHeld (t : Table) (id id' : StreamId) :
    (t.clearHeld id).1.heldOf id' = if id = id' then none else t.heldOf id' := by
  unfold clearHeld
  split
  · rename_i he
    split
    · rename_i heq
      subst heq
      simp [heldOf, he]
    · rfl
  · rename_i entry he
    split
    · rename_i hheld
      split
      · rename_i heq
        subst heq
        simp [heldOf, he, hheld]
      · rfl
    · simp only [heldOf, unindex, getElem?_insert]
      split <;> rfl

theorem mem_clearHeld {t : Table} {id id' : StreamId} (h : ∃ e, t.entries[id']? = some e) :
    ∃ e, (t.clearHeld id).1.entries[id']? = some e := by
  unfold clearHeld
  split
  · exact h
  · split
    · exact h
    · simp only [unindex, getElem?_insert]
      split
      · exact ⟨_, rfl⟩
      · exact h

theorem Wf.clearHeld {t : Table} (h : t.Wf) (id : StreamId) : (t.clearHeld id).1.Wf := by
  unfold Table.clearHeld
  split
  · exact h
  · rename_i entry he
    split
    · exact h
    · rename_i held hheld
      have hheldOf : t.heldOf id = some held := by simp [heldOf, he, hheld]
      refine h.replace he { entry with held := none } rfl rfl rfl ?_ ?_
      · intro rank
        simp [unindex, getElem?_erase]
      · intro token id'
        have hself : ∀ token', t.timerIndex[token']? = some id → held.timer = some token' := by
          intro token' hindex
          obtain ⟨held', hheld', ht⟩ := (h.timer_iff token' id).mp hindex
          obtain rfl : held = held' := by simpa [hheldOf] using hheld'
          exact ht
        simp only [unindex, reduceCtorEq, false_and, exists_false, and_false, false_or]
        cases htimer : held.timer with
        | none =>
            simp only
            refine (and_iff_right_of_imp ?_).symm
            rintro hindex rfl
            simp [hself token hindex] at htimer
        | some tok =>
            simp only [getElem?_erase]
            split
            · rename_i heq
              subst heq
              simp only [reduceCtorEq, false_iff, not_and]
              intro hne hindex
              obtain ⟨held', hheld', ht'⟩ := (h.timer_iff tok id').mp hindex
              exact hne (h.timer_inj hheld' hheldOf ht' htimer)
            · rename_i hne
              refine (and_iff_right_of_imp ?_).symm
              rintro hindex rfl
              exact hne (Option.some.inj (htimer.symm.trans (hself token hindex)))

/-! ### Parking -/

theorem heldOf_setHeld {t : Table} {id : StreamId} (h : ∃ e, t.entries[id]? = some e)
    (held : HeldRead) (id' : StreamId) :
    (t.setHeld id held).heldOf id' = if id = id' then some held else t.heldOf id' := by
  obtain ⟨entry, he⟩ := h
  simp only [setHeld, he, heldOf, getElem?_insert]
  split <;> rfl

/-- Parking needs a stream without a held read and a timer that is not in use. -/
theorem Wf.setHeld {t : Table} (h : t.Wf) {id : StreamId} {held : HeldRead}
    (hnone : t.heldOf id = none)
    (hfresh : ∀ token, held.timer = some token → t.timerIndex[token]? = none) :
    (t.setHeld id held).Wf := by
  unfold Table.setHeld
  split
  · exact h
  · rename_i entry he
    refine h.replace he { entry with held := some held } rfl rfl rfl ?_ ?_
    · intro rank
      simp [getElem?_insert]
    · intro token id'
      have hself : ∀ token' : TimerToken, t.timerIndex[token']? ≠ some id := by
        intro token' hindex
        obtain ⟨held', hheld', -⟩ := (h.timer_iff token' id).mp hindex
        simp [hnone] at hheld'
      simp only [Option.some.injEq, exists_eq_left']
      cases htimer : held.timer with
      | none =>
          simp only [reduceCtorEq, and_false, false_or]
          refine (and_iff_right_of_imp ?_).symm
          rintro hindex rfl
          exact hself token hindex
      | some tok =>
          simp only [getElem?_insert, Option.some.injEq]
          split
          · rename_i heq
            subst heq
            simp [hfresh tok htimer, eq_comm]
          · rename_i hne
            simp only [hne, and_false, false_or]
            refine (and_iff_right_of_imp ?_).symm
            rintro hindex rfl
            exact hself token hindex

/-! ### Removing -/

theorem remove_snd (t : Table) (id : StreamId) : (t.remove id).2 = t.entries[id]? := by
  unfold remove
  split
  · rename_i he
    exact he.symm
  · rename_i entry he
    split <;> exact he.symm

theorem heldOf_remove (t : Table) (id id' : StreamId) :
    (t.remove id).1.heldOf id' = if id = id' then none else t.heldOf id' := by
  unfold remove
  split
  · rename_i he
    split
    · rename_i heq
      subst heq
      simp [heldOf, he]
    · rfl
  · have hlookup : (t.entries.erase id)[id']?.bind Entry.held =
        if id = id' then none else t.entries[id']?.bind Entry.held := by
      rw [getElem?_erase]
      split <;> rfl
    split <;> exact hlookup

theorem Wf.erase {t : Table} (h : t.Wf) {id : StreamId} (hnone : t.heldOf id = none) :
    { t with entries := t.entries.erase id }.Wf := by
  have hlookup : ∀ (id' : StreamId) (e : Entry), (t.entries.erase id)[id']? = some e ↔
      id ≠ id' ∧ t.entries[id']? = some e := by
    intro id' e
    rw [getElem?_erase]
    split <;> simp_all
  have hheldOf : ∀ id', { t with entries := t.entries.erase id }.heldOf id' = t.heldOf id' := by
    intro id'
    rw [heldOf, getElem?_erase]
    split
    · rename_i heq
      subst heq
      exact hnone.symm
    · rfl
  constructor
  case created_lt =>
    intro id' e he
    exact h.created_lt id' e ((hlookup id' e).mp he).2
  case created_inj =>
    intro a b e e' ha hb
    exact h.created_inj a b e e' ((hlookup a e).mp ha).2 ((hlookup b e').mp hb).2
  case order_iff =>
    intro rank id'
    rw [h.order_iff]
    refine exists_congr fun e => ?_
    rw [hlookup, and_assoc]
    refine (and_iff_right_of_imp ?_).symm
    rintro ⟨he, -, hheld⟩ rfl
    simp [heldOf, he] at hnone
    simp [hnone] at hheld
  case timer_iff =>
    intro token id'
    rw [hheldOf]
    exact h.timer_iff token id'

theorem remove_fst (t : Table) (id : StreamId) :
    (t.remove id).1 =
      { (t.clearHeld id).1 with entries := (t.clearHeld id).1.entries.erase id } := by
  have hinsert : ∀ entry : Entry, (t.entries.insert id entry).erase id = t.entries.erase id := by
    intro entry
    ext id' : 1
    simp only [getElem?_erase, getElem?_insert]
    split <;> rfl
  unfold remove clearHeld
  split
  · rename_i he
    have hsame : t.entries.erase id = t.entries := by
      ext id' : 1
      rw [getElem?_erase]
      split
      · rename_i heq
        subst heq
        exact he.symm
      · rfl
    rw [hsame]
  · rename_i entry he
    split
    · rfl
    · simp only [unindex, hinsert]

theorem Wf.remove {t : Table} (h : t.Wf) (id : StreamId) : (t.remove id).1.Wf := by
  rw [remove_fst]
  refine (h.clearHeld id).erase ?_
  rw [heldOf_clearHeld, if_pos rfl]

end Table

end TautShape.Log
