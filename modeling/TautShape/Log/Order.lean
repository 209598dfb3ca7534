import TautShape.Log.Session
import TautShape.Lib.Roster
/-!
# Creation order and watermarks

What the operations of the session table do to the rank and the watermark of each
entry.  `Ranked` lists the entries by rank: the sweep over the held reads then
visits the roster of the streams, less those that hold nothing.
-/

namespace TautShape.Log

open TautShape.Lib

namespace Table

def rankOf (t : Table) (id : StreamId) : Option Nat := t.entries[id]?.map Entry.created

def watermarkOf (t : Table) (id : StreamId) : Option Nat := t.entries[id]?.map Entry.watermark

/-! ## The entry of each stream after an operation -/

theorem entry_getOrCreate (t : Table) (id id' : StreamId) :
    (t.getOrCreate id).entries[id']? = if id = id' then
      some (t.entries[id]?.getD ⟨t.nextRank, none, 0⟩) else t.entries[id']? := by
  unfold getOrCreate
  split
  · rename_i hmem
    obtain ⟨entry, he⟩ := exists_getElem?_of_mem (m := t.entries) (by simpa using hmem)
    by_cases heq : id = id'
    · rw [if_pos heq, ← heq, he, Option.getD_some]
    · rw [if_neg heq]
  · rename_i habsent
    have hnone : t.entries[id]? = none :=
      Std.ExtTreeMap.getElem?_eq_none (by simpa using habsent)
    rw [getElem?_insert, hnone, Option.getD_none]

theorem entry_setWatermark (t : Table) (id id' : StreamId) (watermark : Nat) :
    (t.setWatermark id watermark).entries[id']? = if id = id' then
      t.entries[id]?.map fun entry => { entry with watermark := watermark }
      else t.entries[id']? := by
  unfold setWatermark
  by_cases heq : id = id'
  · subst heq
    split
    · rename_i he
      simp [he]
    · rename_i entry he
      simp [he]
  · split
    · simp [heq]
    · simp [getElem?_insert, heq]

theorem entry_clearHeld (t : Table) (id id' : StreamId) :
    (t.clearHeld id).1.entries[id']? = if id = id' then
      t.entries[id]?.map fun entry => { entry with held := none } else t.entries[id']? := by
  unfold clearHeld
  by_cases heq : id = id'
  · subst heq
    split
    · rename_i he
      simp [he]
    · rename_i entry he
      split
      · rename_i hheld
        rw [if_pos rfl, he, Option.map_some, ← hheld]
      · simp [unindex, he]
  · split
    · simp [heq]
    · split
      · simp [heq]
      · simp [unindex, getElem?_insert, heq]

theorem entry_setHeld (t : Table) (id id' : StreamId) (held : HeldRead) :
    (t.setHeld id held).entries[id']? = if id = id' then
      t.entries[id]?.map fun entry => { entry with held := some held }
      else t.entries[id']? := by
  unfold setHeld
  by_cases heq : id = id'
  · subst heq
    split
    · rename_i he
      simp [he]
    · rename_i entry he
      simp [he]
  · split
    · simp [heq]
    · simp [getElem?_insert, heq]

theorem entry_remove (t : Table) (id id' : StreamId) :
    (t.remove id).1.entries[id']? = if id = id' then none else t.entries[id']? := by
  rw [remove_fst]
  simp only [getElem?_erase, entry_clearHeld]
  by_cases heq : id = id'
  · rw [if_pos heq, if_pos heq]
  · simp [heq]

/-! ## Ranks -/

theorem rankOf_getOrCreate (t : Table) (id id' : StreamId) :
    (t.getOrCreate id).rankOf id' = if id = id' then
      some ((t.rankOf id).getD t.nextRank) else t.rankOf id' := by
  rw [rankOf, entry_getOrCreate]
  split
  · cases he : t.entries[id]? <;> simp [rankOf, he]
  · rfl

@[simp] theorem rankOf_setWatermark (t : Table) (id id' : StreamId) (watermark : Nat) :
    (t.setWatermark id watermark).rankOf id' = t.rankOf id' := by
  rw [rankOf, entry_setWatermark]
  split
  · rename_i heq
    rw [← heq, Option.map_map]
    rfl
  · rfl

@[simp] theorem rankOf_clearHeld (t : Table) (id id' : StreamId) :
    (t.clearHeld id).1.rankOf id' = t.rankOf id' := by
  rw [rankOf, entry_clearHeld]
  split
  · rename_i heq
    rw [← heq, Option.map_map]
    rfl
  · rfl

@[simp] theorem rankOf_setHeld (t : Table) (id id' : StreamId) (held : HeldRead) :
    (t.setHeld id held).rankOf id' = t.rankOf id' := by
  rw [rankOf, entry_setHeld]
  split
  · rename_i heq
    rw [← heq, Option.map_map]
    rfl
  · rfl

theorem rankOf_remove (t : Table) (id id' : StreamId) :
    (t.remove id).1.rankOf id' = if id = id' then none else t.rankOf id' := by
  rw [rankOf, entry_remove]
  split <;> rfl

/-! ## Watermarks -/

theorem watermarkOf_getOrCreate (t : Table) (id id' : StreamId) :
    (t.getOrCreate id).watermarkOf id' = if id = id' then
      some ((t.watermarkOf id).getD 0) else t.watermarkOf id' := by
  rw [watermarkOf, entry_getOrCreate]
  split
  · cases he : t.entries[id]? <;> simp [watermarkOf, he]
  · rfl

theorem watermarkOf_setWatermark (t : Table) (id id' : StreamId) (watermark : Nat) :
    (t.setWatermark id watermark).watermarkOf id' = if id = id' then
      (t.watermarkOf id).map fun _ => watermark else t.watermarkOf id' := by
  rw [watermarkOf, entry_setWatermark]
  split
  · rw [watermarkOf, Option.map_map, Option.map_map]
    rfl
  · rfl

@[simp] theorem watermarkOf_clearHeld (t : Table) (id id' : StreamId) :
    (t.clearHeld id).1.watermarkOf id' = t.watermarkOf id' := by
  rw [watermarkOf, entry_clearHeld]
  split
  · rename_i heq
    rw [← heq, Option.map_map]
    rfl
  · rfl

@[simp] theorem watermarkOf_setHeld (t : Table) (id id' : StreamId) (held : HeldRead) :
    (t.setHeld id held).watermarkOf id' = t.watermarkOf id' := by
  rw [watermarkOf, entry_setHeld]
  split
  · rename_i heq
    rw [← heq, Option.map_map]
    rfl
  · rfl

theorem watermarkOf_remove (t : Table) (id id' : StreamId) :
    (t.remove id).1.watermarkOf id' = if id = id' then none else t.watermarkOf id' := by
  rw [watermarkOf, entry_remove]
  split <;> rfl

/-- A stream with a held read has an entry. -/
theorem watermarkOf_of_heldOf {t : Table} {id : StreamId} {held : HeldRead}
    (h : t.heldOf id = some held) : ∃ watermark, t.watermarkOf id = some watermark := by
  rw [heldOf, Option.bind_eq_some_iff] at h
  obtain ⟨entry, he, -⟩ := h
  exact ⟨entry.watermark, by rw [watermarkOf, he, Option.map_some]⟩

theorem minWatermark_le {t : Table} {low watermark : Nat} {id : StreamId}
    (hlow : t.minWatermark = some low) (hid : t.watermarkOf id = some watermark) :
    low ≤ watermark := by
  rw [watermarkOf, Option.map_eq_some_iff] at hid
  obtain ⟨entry, he, rfl⟩ := hid
  have hmem : entry.watermark ∈ t.entries.toList.map fun p => p.2.watermark :=
    List.mem_map.mpr ⟨(id, entry), Std.ExtTreeMap.mem_toList_iff_getElem?_eq_some.mpr he, rfl⟩
  exact (List.min?_eq_some_iff.mp hlow).2 _ hmem

/-! ## The listing by rank -/

/-- `order` lists the streams of the table by their ranks. -/
structure Ranked (t : Table) (order : List StreamId) : Prop where
  mem_iff : ∀ id, id ∈ order ↔ (t.rankOf id).isSome = true
  sorted : order.Pairwise fun a b => ∀ r r', t.rankOf a = some r → t.rankOf b = some r' → r < r'

theorem ranked_new : new.Ranked [] := by
  constructor
  · simp [new, rankOf]
  · exact List.Pairwise.nil

theorem Ranked.congr {t t' : Table} {order : List StreamId} (h : t.Ranked order)
    (hrank : ∀ id, t'.rankOf id = t.rankOf id) : t'.Ranked order := by
  constructor
  · simpa only [hrank] using h.mem_iff
  · simpa only [hrank] using h.sorted

theorem Ranked.getOrCreate {t : Table} {order : List StreamId} (h : t.Ranked order) (ht : t.Wf)
    (id : StreamId) : (t.getOrCreate id).Ranked (enrol order id) := by
  have hmem := h.mem_iff id
  unfold enrol
  split
  · rename_i hold
    refine h.congr fun id' => ?_
    obtain ⟨rank, hrank⟩ := Option.isSome_iff_exists.mp (hmem.mp hold)
    rw [rankOf_getOrCreate, hrank, Option.getD_some]
    split
    · rename_i heq
      rw [← heq, hrank]
    · rfl
  · rename_i hnew
    have hnone : t.rankOf id = none := by
      simpa using mt hmem.mpr hnew
    have hne : ∀ a ∈ order, id ≠ a := fun a ha heq => hnew (heq ▸ ha)
    constructor
    · intro id'
      rw [List.mem_append, List.mem_singleton, rankOf_getOrCreate, h.mem_iff]
      by_cases heq : id = id'
      · simp [heq]
      · simp [heq, Ne.symm heq]
    · rw [List.pairwise_append]
      refine ⟨?_, List.pairwise_singleton _ _, ?_⟩
      · refine h.sorted.imp_of_mem fun ha hb hlt => ?_
        rwa [rankOf_getOrCreate, rankOf_getOrCreate, if_neg (hne _ ha), if_neg (hne _ hb)]
      · intro a ha b hb r r' hr hr'
        rw [List.mem_singleton] at hb
        subst hb
        rw [rankOf_getOrCreate, if_neg (hne a ha), rankOf, Option.map_eq_some_iff] at hr
        rw [rankOf_getOrCreate, if_pos rfl, hnone, Option.getD_none] at hr'
        obtain ⟨entry, he, rfl⟩ := hr
        obtain rfl := Option.some.inj hr'
        exact ht.created_lt a entry he

theorem Ranked.remove {t : Table} {order : List StreamId} (h : t.Ranked order) (id : StreamId) :
    (t.remove id).1.Ranked (strike order id) := by
  constructor
  · intro id'
    rw [mem_strike, rankOf_remove, h.mem_iff]
    by_cases heq : id = id'
    · simp [heq]
    · simp [heq, Ne.symm heq]
  · refine (h.sorted.filter _).imp fun hlt r r' hr hr' => ?_
    rw [rankOf_remove] at hr hr'
    split at hr
    · simp at hr
    · split at hr'
      · simp at hr'
      · exact hlt r r' hr hr'

theorem Ranked.heldInCreationOrder {t : Table} {order : List StreamId} (h : t.Ranked order)
    (ht : t.Wf) :
    t.heldInCreationOrder = order.filter fun id => (t.heldOf id).isSome := by
  let place : StreamId → Nat × StreamId := fun id => ((t.rankOf id).getD 0, id)
  have hrank : ∀ id ∈ order, t.rankOf id = some (place id).1 := by
    intro id hid
    obtain ⟨rank, hsome⟩ := Option.isSome_iff_exists.mp ((h.mem_iff id).mp hid)
    simp [place, hsome]
  have hlist : t.heldOrder.toList =
      (order.filter fun id => (t.heldOf id).isSome).map place := by
    refine toList_eq_of_ascending ?_ ?_
    · rw [Ascending, List.pairwise_map]
      refine (h.sorted.filter _).imp_of_mem fun ha hb hlt => ?_
      exact Nat.compare_eq_lt.mpr (hlt _ _ (hrank _ (List.mem_filter.mp ha).1)
        (hrank _ (List.mem_filter.mp hb).1))
    · intro rank id
      rw [ht.order_iff, List.mem_map]
      constructor
      · rintro ⟨entry, he, rfl, hheld⟩
        have hid : t.rankOf id = some entry.created := by rw [rankOf, he, Option.map_some]
        refine ⟨id, List.mem_filter.mpr ⟨(h.mem_iff id).mpr (by rw [hid]; rfl), ?_⟩, ?_⟩
        · simpa [Table.heldOf, he] using hheld
        · simp [place, hid]
      · rintro ⟨id', hid', hplace⟩
        obtain ⟨hmem, hheld⟩ := List.mem_filter.mp hid'
        obtain ⟨hfst, rfl⟩ := Prod.mk.inj hplace
        cases he : t.entries[id']? with
        | none => simp [Table.heldOf, he] at hheld
        | some entry =>
            refine ⟨entry, rfl, ?_, by simpa [Table.heldOf, he] using hheld⟩
            simpa [rankOf, he] using hfst
  rw [Table.heldInCreationOrder, hlist, List.map_map]
  exact List.map_id'' (fun _ => rfl) _

end Table

end TautShape.Log
