import TautShape.Stream.Ring
import TautShape.Held.Refine
/-!
# What one input does

The readers of the stream engine are a desk too, though it keeps them differently: a
reader is taken out of the map while its read is resolved, and a dropped one does not come
back.  What a read is told depends on the reader's position, which only an answer moves.
-/

namespace TautShape.Stream

open TautShape.Lib TautShape.Held
open TautShape.Log (Bytes StopWhen)

def StreamInput.ask : StreamInput → Ask String Request
  | .read streamId request => .read streamId request
  | .endStream streamId => .leave streamId
  | .timerExpired token => .expire token.toNat
  | _ => .wake

def reply : StreamOutput → Reply String StreamReadResponse :=
  Output.reply StreamReadResponse.streamId

def parting (response : StreamReadResponse) : Bool := response.state = .dropped

namespace StreamNode

variable {n : StreamNode}

def heldOf (n : StreamNode) (streamId : String) : Option (HeldRead Request) :=
  n.readers[streamId]?.bind Reader.held

/-- The reader of a stream while its read is resolved; a new one stands at the head. -/
def readerOf (n : StreamNode) (streamId : String) : Reader :=
  match n.readers[streamId]? with
  | some reader => { reader with held := none }
  | none => ⟨n.head, none⟩

def answer (n : StreamNode) (streamId : String) (request : Request) : Option StreamReadResponse :=
  (n.resolve streamId (n.readerOf streamId) request).2

def probe (n : StreamNode) (streamId : String) (request : Request) : Option StreamReadResponse :=
  n.answer streamId { request with timeoutMs := some 0 }

def policy (n : StreamNode) : Policy String Request StreamReadResponse where
  answer := n.answer
  late := n.probe
  timed request := (request.timeoutMs.filter (0 < ·)).isSome
  parting := parting

def desk (n : StreamNode) : Desk String Request where
  order := n.order
  kept streamId := (n.heldOf streamId).map HeldRead.kept
  timers := (n.nextToken - 1).toNat

structure Wf (n : StreamNode) : Prop where
  /-- `order` lists the keys of `readers`. -/
  keys : ∀ id, id ∈ n.order ↔ id ∈ n.readers
  first : 1 ≤ n.nextToken
  tokens : ∀ id held token, n.heldOf id = some held → held.timerToken = some token → 1 ≤ token
  ring : ∃ log, Ring log n
  placed : ∀ (id : String) (reader : Reader), n.readers[id]? = some reader →
    0 ≤ reader.cursor ∧ reader.cursor ≤ n.head

theorem wf_new (capacityRecords : Nat) (capacity_pos : 0 < capacityRecords)
    (stopWhen : StopWhen) : (new capacityRecords capacity_pos stopWhen).Wf := by
  refine ⟨by simp [new], le_rfl, ?_, ⟨[], ring_new capacityRecords capacity_pos stopWhen⟩, ?_⟩
  · intro id held token hheld
    simp [new, heldOf] at hheld
  · intro id reader hreader
    simp [new] at hreader

theorem desk_new (capacityRecords : Nat) (capacity_pos : 0 < capacityRecords)
    (stopWhen : StopWhen) : (new capacityRecords capacity_pos stopWhen).desk = Desk.new := by
  simp only [desk, new, Desk.new, heldOf]
  congr 1

/-! ## The map of readers -/

@[simp] theorem readers_insertReader (id a : String) (reader : Reader) :
    (n.insertReader id reader).readers[a]? = if a = id then some reader else n.readers[a]? := by
  rw [insertReader, getElem?_insert]
  simp only [eq_comm]

@[simp] theorem readers_removeFromMap (id a : String) :
    (n.removeFromMap id).readers[a]? = if a = id then none else n.readers[a]? := by
  rw [removeFromMap, getElem?_erase]
  simp only [eq_comm]

theorem insert_remove (n : StreamNode) (id : String) (reader : Reader) :
    (n.removeFromMap id).insertReader id reader = n.insertReader id reader := by
  have hreaders : ((n.removeFromMap id).insertReader id reader).readers =
      (n.insertReader id reader).readers := by
    refine Std.ExtTreeMap.ext_getElem? fun a => ?_
    simp only [readers_insertReader, readers_removeFromMap]
    split <;> rfl
  exact congrArg (fun readers => { n with readers := readers }) hreaders

theorem Wf.readerOf_placed (h : n.Wf) (id : String) :
    0 ≤ (n.readerOf id).cursor ∧ (n.readerOf id).cursor ≤ n.head := by
  obtain ⟨log, hring⟩ := h.ring
  have hhead := hring.head
  unfold StreamNode.readerOf
  split
  · rename_i reader hreader
    exact h.placed id reader hreader
  · constructor <;> simp only <;> omega

theorem Wf.resolve_spec (h : n.Wf) (id : String) (request : Request) :
    ∃ log, Ring log n ∧
      Resolved log n id (n.readerOf id) request (n.resolve id (n.readerOf id) request) := by
  obtain ⟨log, hring⟩ := h.ring
  have hplaced := h.readerOf_placed id
  exact ⟨log, hring, hring.resolve_spec id _ hplaced.1 hplaced.2 request⟩

theorem Wf.waiting (h : n.Wf) {id : String} {request : Request}
    (hnone : n.answer id request = none) :
    (n.readerOf id).cursor = n.head ∧ n.isSealed = false ∧ n.isClosed = false := by
  obtain ⟨log, -, hspec⟩ := h.resolve_spec id request
  rw [answer] at hnone
  generalize n.resolve id (n.readerOf id) request = result at hspec hnone
  cases hspec with
  | waits hcursor hopen htimeout => exact ⟨hcursor, hopen⟩
  | _ => simp at hnone

/-- A probe is never held, which the source unwraps. -/
theorem probe_isSome (n : StreamNode) (id : String) (request : Request) :
    (n.probe id request).isSome = true := by
  unfold probe answer resolve
  split
  · rfl
  · simp only
    split
    · rfl
    · split
      · split <;> rfl
      · split <;> rfl

theorem answer_name (n : StreamNode) (id : String) (request : Request) (r : StreamReadResponse)
    (h : n.answer id request = some r) : r.streamId = id := by
  unfold answer resolve at h
  split at h
  · exact Option.some.inj h ▸ rfl
  simp only at h
  split at h
  · exact Option.some.inj h ▸ rfl
  split at h
  · split at h <;> exact Option.some.inj h ▸ rfl
  split at h
  · exact Option.some.inj h ▸ rfl
  split at h
  · exact Option.some.inj h ▸ rfl
  · simp at h

theorem resolve_held (n : StreamNode) (id : String) (reader : Reader) (request : Request) :
    (n.resolve id reader request).1.held = reader.held := by
  unfold resolve
  split
  · rfl
  · simp only
    split
    · rfl
    · split
      · split <;> rfl
      · split
        · rfl
        · split <;> rfl

/-! ## Well-formed nodes -/

theorem heldOf_insertReader (id a : String) (reader : Reader) :
    (n.insertReader id reader).heldOf a = if a = id then reader.held else n.heldOf a := by
  rw [heldOf, readers_insertReader]
  split <;> rfl

theorem mem_readers_iff (n : StreamNode) (id : String) :
    id ∈ n.readers ↔ ∃ reader, n.readers[id]? = some reader := by
  rw [Std.ExtTreeMap.mem_iff_isSome_getElem?, Option.isSome_iff_exists]

theorem Wf.insertReader (h : n.Wf) {id : String} (hid : id ∈ n.order) {reader : Reader}
    (hplaced : 0 ≤ reader.cursor ∧ reader.cursor ≤ n.head)
    (htoken : ∀ held token, reader.held = some held → held.timerToken = some token → 1 ≤ token) :
    (n.insertReader id reader).Wf := by
  refine ⟨fun a => ?_, h.first, fun a held token hheld ht => ?_, ?_, fun a r hr => ?_⟩
  · show a ∈ n.order ↔ _
    rw [h.keys, mem_readers_iff, mem_readers_iff, readers_insertReader]
    split
    · rename_i heq
      subst heq
      exact iff_of_true ((mem_readers_iff n a).mp ((h.keys a).mp hid)) ⟨_, rfl⟩
    · rfl
  · rw [heldOf_insertReader] at hheld
    split at hheld
    · exact htoken held token hheld ht
    · exact h.tokens a held token hheld ht
  · obtain ⟨log, hring⟩ := h.ring
    exact ⟨log, hring.congr rfl rfl rfl⟩
  · rw [readers_insertReader] at hr
    split at hr
    · exact Option.some.inj hr ▸ hplaced
    · exact h.placed a r hr

theorem Wf.resolve_placed (h : n.Wf) (id : String) (request : Request) :
    0 ≤ (n.resolve id (n.readerOf id) request).1.cursor ∧
      (n.resolve id (n.readerOf id) request).1.cursor ≤ n.head := by
  obtain ⟨log, hring, hspec⟩ := h.resolve_spec id request
  have hhead := hring.head
  have hplaced := h.readerOf_placed id
  generalize n.resolve id (n.readerOf id) request = result at hspec ⊢
  cases hspec with
  | dropped hfar => exact hplaced
  | data last hnear hlt hle => exact ⟨by simp only; omega, by simp only; omega⟩
  | idle state error hcursor hdata hdropped => exact hplaced
  | waits hcursor hopen htimeout => exact hplaced

/-! ## The sweep -/

def released (n : StreamNode) (id : String) (entry : Option Reader) :
    Option Reader × List StreamOutput :=
  match entry with
  | none => (none, [])
  | some reader =>
      match reader.held with
      | none => (some reader, [])
      | some held =>
          match n.resolve id { reader with held := none } held.request with
          | (_, none) => (some reader, [])
          | (reader, some response) =>
              (some reader, cancelTimer held.timerToken ++ [.readResponse response])

def putEntry (n : StreamNode) (id : String) : Option Reader → StreamNode
  | none => n
  | some reader => n.insertReader id reader

/-- A node in the middle of a sweep: only its readers differ from `m`, and those that hold
a read are not overtaken by the ring. -/
structure Sweeping (m n : StreamNode) : Prop where
  wf : n.Wf
  same : n = { m with readers := n.readers }
  near : ∀ (id : String) (reader : Reader), n.readers[id]? = some reader →
    reader.held.isSome = true → m.floor - 1 ≤ reader.cursor

theorem resolve_near (m : StreamNode) (id : String) (reader : Reader)
    (h : m.floor - 1 ≤ reader.cursor) (request : Request) :
    (m.resolve id reader request).2 = none ∧ (m.resolve id reader request).1 = reader ∨
      ∃ r, (m.resolve id reader request).2 = some r ∧ r.state ≠ .dropped ∧
        (m.resolve id reader request).1.held = reader.held := by
  unfold resolve
  rw [if_neg (by omega)]
  simp only
  split
  · exact .inr ⟨_, rfl, by simp [response], rfl⟩
  split
  · split
    · exact .inr ⟨_, rfl, by simp [response], rfl⟩
    · exact .inr ⟨_, rfl, by simp [response], rfl⟩
  split
  · exact .inr ⟨_, rfl, by simp [response], rfl⟩
  split
  · exact .inr ⟨_, rfl, by simp [response], rfl⟩
  · exact .inl ⟨rfl, rfl⟩

theorem answerHeld_eq {m : StreamNode} (h : Sweeping m n) (id : String) :
    answerHeld n id = (n.putEntry id (released m id n.readers[id]?).1,
      (released m id n.readers[id]?).2) := by
  have hresolve : n.resolve = m.resolve := by rw [h.same]; rfl
  unfold answerHeld released
  cases hentry : n.readers[id]? with
  | none => rfl
  | some reader =>
      cases hheld : reader.held with
      | none => simp only [hheld, insert_remove, putEntry]
      | some held =>
          have hremoved : (n.removeFromMap id).resolve = m.resolve := hresolve
          have hnear := h.near id reader hentry (by rw [hheld]; rfl)
          have hcases := m.resolve_near id { reader with held := none } hnear held.request
          simp only [hheld, hremoved]
          generalize m.resolve id { reader with held := none } held.request = result at hcases ⊢
          obtain ⟨reader', answer⟩ := result
          rcases hcases with ⟨hnone, hsame⟩ | ⟨r, hsome, hstate, -⟩
          · simp only at hnone hsame
            subst hnone hsame
            simp only [insert_remove, putEntry, ← hheld]
          · simp only at hsome
            subst hsome
            simp only [if_neg hstate, insert_remove, putEntry]

theorem readerOf_of_entry {id : String} {reader : Reader} (h : n.readers[id]? = some reader) :
    n.readerOf id = { reader with held := none } := by
  rw [readerOf, h]

theorem released_held {m : StreamNode} {id : String} {entry : Option Reader} {reader : Reader}
    (h : (released m id entry).1 = some reader) (hheld : reader.held.isSome = true) :
    entry = some reader := by
  unfold released at h
  cases entry with
  | none => simp at h
  | some r =>
      cases hr : r.held with
      | none => simpa [hr] using h
      | some held =>
          have hkeeps := m.resolve_held id { r with held := none } held.request
          simp only [hr] at h
          generalize m.resolve id { r with held := none } held.request = result at h hkeeps
          obtain ⟨r', answer⟩ := result
          cases answer with
          | none => exact h
          | some response =>
              simp only [Option.some.injEq] at h
              subst h
              simp only at hkeeps
              simp [hkeeps] at hheld

theorem Sweeping.answerHeld {m : StreamNode} (h : Sweeping m n) (id : String) :
    Sweeping m (answerHeld n id).1 := by
  rw [answerHeld_eq h]
  cases hentry : (released m id n.readers[id]?).1 with
  | none => exact h
  | some reader =>
      have hold : ∃ r, n.readers[id]? = some r := by
        cases hr : n.readers[id]? with
        | none => simp [hr, released] at hentry
        | some r => exact ⟨r, rfl⟩
      have hid : id ∈ n.order := (h.wf.keys id).mpr ((mem_readers_iff n id).mpr hold)
      have hunchanged : reader.held.isSome = true → n.readers[id]? = some reader :=
        fun hheld => released_held hentry hheld
      refine ⟨h.wf.insertReader hid ?_ ?_, ?_, ?_⟩
      · -- the reader's new position is one that `resolve` gave it
        obtain ⟨r, hr⟩ := hold
        have hresolve : m.resolve = n.resolve := by rw [h.same]; rfl
        cases hheld : r.held with
        | none =>
            simp only [hr, released, hheld, Option.some.injEq] at hentry
            exact hentry ▸ h.wf.placed id r hr
        | some held =>
            have hplaced := h.wf.resolve_placed id held.request
            rw [readerOf_of_entry hr] at hplaced
            simp only [hr, released, hheld, hresolve] at hentry
            generalize n.resolve id { r with held := none } held.request = result at hentry hplaced
            obtain ⟨r', answer⟩ := result
            cases answer with
            | none => exact Option.some.inj hentry ▸ h.wf.placed id r hr
            | some response => exact Option.some.inj hentry ▸ hplaced
      · intro held token hheld htoken
        refine h.wf.tokens id held token ?_ htoken
        rw [heldOf, hunchanged (by rw [hheld]; rfl)]
        exact hheld
      · rw [putEntry, StreamNode.insertReader, h.same]
      · intro a r hr hheld
        rw [putEntry, readers_insertReader] at hr
        split at hr
        · rename_i heq
          obtain rfl := Option.some.inj hr
          exact h.near id reader (hunchanged hheld) hheld
        · exact h.near a r hr hheld

theorem sweeps_answerHeld (m : StreamNode) :
    Sweeps StreamNode.answerHeld (Sweeping m) (fun n id => n.readers[id]?) (released m) := by
  refine ⟨fun n id h => h.answerHeld id, fun n id h => by rw [answerHeld_eq h], ?_⟩
  intro n id a h
  rw [answerHeld_eq h]
  cases hentry : (released m id n.readers[id]?).1 with
  | none =>
      have hnone : n.readers[id]? = none := by
        cases hr : n.readers[id]? with
        | none => rfl
        | some r =>
            unfold released at hentry
            simp only [hr] at hentry
            split at hentry
            · simp at hentry
            · split at hentry <;> simp at hentry
      simp only [putEntry]
      split
      · rename_i heq
        exact heq ▸ hnone
      · rfl
  | some reader =>
      simp only [putEntry, readers_insertReader, eq_comm]

theorem released_turn (m : StreamNode) (id : String) :
    ((released m id m.readers[id]?).1.bind Reader.held).map HeldRead.kept =
        (Desk.turnOf m.policy id (m.desk.kept id)).1 ∧
      (released m id m.readers[id]?).2.map reply =
        (Desk.turnOf m.policy id (m.desk.kept id)).2 := by
  cases hentry : m.readers[id]? with
  | none => simp [released, desk, heldOf, hentry, Desk.turnOf]
  | some reader =>
      cases hheld : reader.held with
      | none => simp [released, desk, heldOf, hentry, hheld, Desk.turnOf]
      | some held =>
          have hkept : m.desk.kept id = some held.kept := by simp [desk, heldOf, hentry, hheld]
          have hkeeps := m.resolve_held id { reader with held := none } held.request
          have hanswer : m.policy.answer id held.kept.request =
              (m.resolve id { reader with held := none } held.request).2 := by
            simp only [policy, answer, readerOf_of_entry hentry, HeldRead.kept]
          have hname := m.answer_name id held.request
          simp only [answer, readerOf_of_entry hentry] at hname
          simp only [released, hheld, hkept, Desk.turnOf, hanswer]
          generalize m.resolve id { reader with held := none } held.request = result
            at hkeeps hname ⊢
          obtain ⟨reader', response⟩ := result
          cases response with
          | none => simp [hheld]
          | some response =>
              have hback := map_cancelTimer (δ := StreamDiagnostic)
                StreamReadResponse.streamId (some held)
              simp only [Option.bind_some, Option.map_some] at hback
              simp only at hkeeps
              refine ⟨by simp [hkeeps], ?_⟩
              rw [List.map_append]
              exact congrArg₂ (· ++ ·) hback (by simp [reply, Output.reply, hname response rfl])

end StreamNode

end TautShape.Stream
