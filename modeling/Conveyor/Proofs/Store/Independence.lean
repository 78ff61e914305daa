import Conveyor.Proofs.Run.Sharing
import Conveyor.Proofs.Store.Noninterference

/-!
# Independent items

The items of a map are independent of each other if no cell that is written for one of them is read
or written for another, when the pipeline of the map runs for each of them alone. If these runs
succeed, then the map ends with the same outputs and leaves the same store whatever its limit is and
however long its calls take: those of its pipeline when it runs for one item after another
(`Pipeline.run_of_independent`).

Each item has a part of the store, the cells that its calls read or write, and what no item writes
is one part more (`Memory.part`). The calls of an item are answered by its own part, and leave the
others as they are; so the branches of the map are apart (`Memory.plan_apart`).
-/

namespace Conveyor

/-! ### Services as adapters with delays -/

/-- A service as an adapter whose calls take the time that is given. -/
def Service.delayed {σ : Type} (s : Service σ) (describe : Deed → String)
    (delay : String → Json → Nat) : Adapter σ :=
  { s.adapter describe with delay }

theorem Service.delayed_performs {σ : Type} (s : Service σ) (describe : Deed → String)
    (delay : String → Json → Nat) : (s.delayed describe delay).Performs s.invoke := by
  intro number operation input state
  rcases hperform : s.perform operation input state with ⟨_ | ⟨output, deed⟩, state'⟩
  · have hinvoke : s.invoke operation input state = _ := Call.bind_of_error hperform
    simp only [delayed, adapter, hperform, hinvoke, and_self]
  · have hinvoke : s.invoke operation input state = _ := Call.bind_of_ok hperform
    simp only [delayed, adapter, hperform, hinvoke]
    exact ⟨rfl, rfl⟩

/-! ### The parts of the items -/

namespace Memory

variable (policy : AccessPolicy) (s : Memory) (count : Nat) (calls : Nat → List (String × Json))
  (output : Nat → Json) (last : Nat → Memory)

/-- The part of an item is what its calls read or write; the rest is what no item writes. -/
def part (item : Nat) (c : Cell) : Prop :=
  if item < count then Service.Touches policy s.schema (calls item) c
  else ∀ item < count, ¬Service.Changes policy s.schema (calls item) c

/-- What is done with the items by itself, each with its part of the store. -/
def plan : Plan Memory where
  count := count
  first := s
  calls := calls
  output := output
  last item := if item < count then last item else s
  Alike item := Matches s.schema (part policy s count calls item)

variable {policy s count calls output last}

/-- Items are apart if what is changed for one of them is not touched for another. -/
theorem plan_apart (h : ∀ i < count, ∀ j < count, i ≠ j → ∀ c,
      Service.Changes policy s.schema (calls i) c → ¬Service.Touches policy s.schema (calls j) c) :
    (plan policy s count calls output last).Apart (service policy).invoke where
  last item hitem := if_neg (Nat.not_lt.mpr hitem)
  alike item := ⟨fun _ => rfl, fun _ => rfl, fun c _ => .refl s c⟩
  own item hitem call hcall st st' hstates := by
    have hreads : ∀ c, Service.Reads policy s.schema call c →
        part policy s count calls item c :=
      fun c hc => (if_pos hitem).mpr ⟨call, hcall, .inl hc⟩
    obtain ⟨hanswer, hafter⟩ := Service.invoke_alike hreads st st' hstates
    exact ⟨hanswer.eq, hafter⟩
  other item hitem other hne call hcall st st' hstates := by
    have hwrites : ∀ c, Service.Writes policy s.schema call c →
        ¬part policy s count calls other c := by
      intro c hc
      have hchanges : Service.Changes policy s.schema (calls item) c := ⟨call, hcall, hc⟩
      unfold part
      split
      · rename_i hother
        exact h item hitem other hother hne.symm c hchanges
      · exact fun hrest => hrest item hitem hchanges
    exact (Service.invoke_keeps hwrites st hstates.left).trans hstates

/-- The parts make up the whole store. -/
theorem agrees_of_shares {m n : Memory}
    (hm : (plan policy s count calls output last).Shares
      (plan policy s count calls output last).last m)
    (hn : (plan policy s count calls output last).Shares
      (plan policy s count calls output last).last n) : m.Agrees (fun _ => True) n := by
  have hsame (c : Cell) : c.Same m n := by
    -- the cell is in the part of the item that changes it, or in the rest
    obtain ⟨item, hpart⟩ : ∃ item, part policy s count calls item c := by
      by_cases hc : ∃ item < count, Service.Changes policy s.schema (calls item) c
      · obtain ⟨item, hitem, hchanges⟩ := hc
        exact ⟨item, (if_pos hitem).mpr hchanges.touches⟩
      · refine ⟨count, (if_neg (Nat.lt_irrefl count)).mpr fun item hitem hchanges => ?_⟩
        exact hc ⟨item, hitem, hchanges⟩
    exact ((hm item).same c hpart).trans ((hn item).same c hpart).symm
  exact ⟨fun r _ => hsame (.object r),
    fun table => ((hm 0).left table).trans ((hn 0).left table).symm,
    fun table key => hsame (.row table key)⟩

end Memory

/-! ### Maps over independent items -/

namespace Pipeline

/-- A cell that is changed for one of the items is not touched for another one, when the pipeline
runs for each of them alone. -/
def Independent (policy : AccessPolicy) (adapter : Adapter Memory) (s : Memory)
    (iterator : Pipeline) (items : List Json) : Prop :=
  ∀ (i j : Nat) (x y : Json), items[i]? = some x → items[j]? = some y → i ≠ j → ∀ c,
    Service.Changes policy s.schema (iterator.machine adapter s x).world.made c →
      ¬Service.Touches policy s.schema (iterator.machine adapter s y).world.made c

/-- **Independent items commute.** If the pipeline of a map, which has no map itself, succeeds for
each item alone, and the items are independent, then the map ends with the outputs and leaves the
objects and rows of the pipeline run for one item after another, whatever its limit is and however
long its calls take. -/
theorem run_of_independent (policy : AccessPolicy) (describe : Deed → String)
    (delay : String → Json → Nat) {iterator : Pipeline} (hiterator : iterator.MapFree) (s : Memory)
    (items : List Json)
    (hsucceeds : ∀ x ∈ items, ∃ output,
      iterator.alone ((Memory.service policy).delayed describe delay) s x =
        some (.finished (.ok output)))
    (hindependent :
      iterator.Independent policy ((Memory.service policy).delayed describe delay) s items) :
    let adapter := (Memory.service policy).delayed describe
    ∃ outputs final, iterator.inTurn (adapter delay) items s = some (outputs, final) ∧
      ∀ (delay' : String → Json → Nat) (head : MapHead) (id : String) (w : World Memory)
        (fresh : Nat), w.state = s → Machine.root < fresh →
        let m := head.machine (adapter delay') w fresh iterator id items
        m.ending = some (.finished (.ok (.array outputs))) ∧
          m.world.state.Agrees (fun _ => True) final := by
  intro adapter
  have hperforms := (Memory.service policy).delayed_performs describe
  have hlookup : ∀ item < items.length, items[item]? = some (items.getD item .null) := by
    intro item hitem
    rw [List.getD_eq_getElem?_getD, List.getElem?_eq_getElem hitem, Option.getD_some]
  have houtput : ∀ item, ∃ output, item < items.length →
      iterator.alone (adapter delay) s (items.getD item .null) = some (.finished (.ok output)) := by
    intro item
    by_cases hitem : item < items.length
    · obtain ⟨output, h⟩ := hsucceeds _ (List.mem_of_getElem? (hlookup item hitem))
      exact ⟨output, fun _ => h⟩
    · exact ⟨.null, fun h => absurd h hitem⟩
  choose output houtput using houtput
  -- the plan is what is recorded when the pipeline runs alone
  let alone (item : Nat) : World Memory :=
    (iterator.machine (adapter delay) s (items.getD item .null)).world
  let p : Plan Memory := Memory.plan policy s items.length (fun item => (alone item).made) output
    fun item => (alone item).state
  have hapart : p.Apart (Memory.service policy).invoke := Memory.plan_apart
    fun i hi j hj hne => hindependent i j _ _ (hlookup i hi) (hlookup j hj) hne
  have hlast (item : Nat) (hitem : item < items.length) : p.last item = (alone item).state :=
    if_pos hitem
  have hevaluates (item : Nat) (hitem : item < items.length) :=
    Pipeline.evaluates_of_alone (hperforms delay) hiterator (houtput item hitem)
  obtain ⟨final, hturn, hfinal⟩ := hapart.inTurn (hperforms delay) iterator items rfl
    fun item hitem => hlast item hitem ▸ (hevaluates item hitem).1
  refine ⟨_, final, hturn, fun delay' head id w fresh hw hfresh => ?_⟩
  obtain ⟨hending, hshares⟩ := hapart.run_map (hperforms delay') head id rfl
    (fun item hitem => hlast item hitem ▸ (hevaluates item hitem).2 id item) hw hfresh
  exact ⟨hending, Memory.agrees_of_shares hshares hfinal⟩

/-- Two objects are copied. -/
theorem run_of_independent_copies :
    let iterator : Pipeline :=
      [.task ⟨"copy", none, Operation.copyObject.name, none, none, .replace, none⟩]
    let item (key : String) : Json := .object [("Bucket", .string "out"), ("Key", .string key),
      ("CopySource", .string ("in/" ++ key))]
    let keys := ["a", "b"]
    let items := keys.map item
    let s := (Memory.empty.setObject ⟨"in", "a"⟩ "data".toUTF8).setObject ⟨"in", "b"⟩ "text".toUTF8
    let adapter := (Memory.service .allowAll).delayed fun _ => ""
    let delay : String → Json → Nat := fun _ _ => 1
    (iterator.MapFree ∧
      (∀ x ∈ items, ∃ output,
        iterator.alone (adapter delay) s x = some (.finished (.ok output))) ∧
      iterator.Independent .allowAll (adapter delay) s items) ∧
    ∃ outputs final, iterator.inTurn (adapter delay) items s = some (outputs, final) ∧
      ∀ (delay' : String → Json → Nat) (head : MapHead) (id : String) (w : World Memory)
        (fresh : Nat), w.state = s → Machine.root < fresh →
        let m := head.machine (adapter delay') w fresh iterator id items
        m.ending = some (.finished (.ok (.array outputs))) ∧
          m.world.state.Agrees (fun _ => True) final := by
  intro iterator item keys items s adapter delay
  have hiterator : iterator.MapFree := ⟨trivial, trivial⟩
  have hanswer : ∀ x ∈ items,
      ((Memory.service .allowAll).invoke Operation.copyObject.name x s).1.isOk = true := by
    decide +kernel
  have hmachine : ∀ x ∈ items, (∃ output,
      iterator.alone (adapter delay) s x = some (.finished (.ok output))) ∧
      (iterator.machine (adapter delay) s x).world.made = [(Operation.copyObject.name, x)] := by
    intro x hx
    cases h : ((Memory.service .allowAll).invoke Operation.copyObject.name x s).1 with
    | error e => cases h ▸ hanswer x hx
    | ok output =>
      obtain ⟨hending, -, hmade⟩ := Machine.run_of_evaluates (w := .initial s x)
        ((Memory.service .allowAll).delayed_performs _ delay) Nat.one_pos
        (iterator.activity_lawful "" x) (evaluates_singleton _ _ _ h)
      exact ⟨⟨output, hending⟩, hmade⟩
  have hsucceeds : ∀ x ∈ items, ∃ output,
      iterator.alone (adapter delay) s x = some (.finished (.ok output)) :=
    fun x hx => (hmachine x hx).1
  have hplaces : ∀ key ∈ keys, Service.namedObject .copyObject (item key) = .ok ⟨"out", key⟩ ∧
      Service.sourceObject (item key) = .ok ⟨"in", key⟩ := by
    decide
  have hindependent : iterator.Independent .allowAll (adapter delay) s items := by
    intro i j x y hx hy hne c hc hc'
    rw [(hmachine x (List.mem_of_getElem? hx)).2, Service.changes_singleton] at hc
    rw [(hmachine y (List.mem_of_getElem? hy)).2, Service.touches_singleton] at hc'
    rw [List.getElem?_map, Option.map_eq_some_iff] at hx hy
    obtain ⟨key, hkey, rfl⟩ := hx
    obtain ⟨key', hkey', rfl⟩ := hy
    have hplace := hplaces key (List.mem_of_getElem? hkey)
    have hplace' := hplaces key' (List.mem_of_getElem? hkey')
    cases hc with
    | copyObject h =>
      obtain rfl := Except.ok.inj (hplace.1.symm.trans h)
      rcases hc' with hreads | hwrites
      · -- nothing is copied from the place to which an item is copied
        cases hreads with
        | copyObject h' =>
          have heq := congrArg ObjectRef.container (Except.ok.inj (hplace'.2.symm.trans h'))
          exact absurd heq (by decide : "in" ≠ "out")
      · -- each item is copied to a place of its own
        cases hwrites with
        | copyObject h' =>
          have heq : key' = key :=
            congrArg ObjectRef.key (Except.ok.inj (hplace'.1.symm.trans h'))
          have hlt : i < keys.length := (List.getElem?_eq_some_iff.mp hkey).choose
          exact hne ((List.getElem?_inj hlt (by decide)).mp (hkey.trans (heq ▸ hkey'.symm)))
  exact ⟨⟨hiterator, hsucceeds, hindependent⟩,
    run_of_independent .allowAll _ delay hiterator s items hsucceeds hindependent⟩

end Pipeline

end Conveyor
