import Conveyor.Proofs.Result
import Conveyor.Yaml.Reading

/-!
# What readers ensure

A reader ensures a property if every value that it reads from a document has it
(`Reader.Ensures`). There is one rule for each way in which readers are built.
-/

namespace Conveyor.Yaml

namespace Reader

variable {α β : Type} {P : α → Prop} {Q : β → Prop} {r : Reader α}

/-- Every value that is read has the property. -/
def Ensures (r : Reader α) (P : α → Prop) : Prop :=
  ∀ s n a n', (r.run s).run n = .ok (a, n') → P a

namespace Ensures

theorem pure {a : α} (h : P a) : Ensures (pure a : Reader α) P := by
  rintro s n b n' hrun
  obtain ⟨rfl, -⟩ := Prod.mk.inj (Except.ok.inj hrun)
  exact h

theorem throw (e : ReadError) : Ensures (throw e : Reader α) P :=
  nofun

theorem bind {f : α → Reader β} (hr : Ensures r P) (hf : ∀ a, P a → Ensures (f a) Q) :
    Ensures (r >>= f) Q := by
  intro s n b n' hrun
  obtain ⟨⟨a, m⟩, ha, hb⟩ := Except.bind_eq_ok.mp hrun
  exact hf a (hr s n a m ha) s m b n' hb

/-- Of what is read first nothing may be known. -/
theorem seq {f : α → Reader β} (hf : ∀ a, Ensures (f a) Q) : Ensures (r >>= f) Q :=
  bind (fun _ _ _ _ _ => trivial) fun a (_ : True) => hf a

theorem map {f : α → β} (hr : Ensures r P) (hf : ∀ a, P a → Q (f a)) :
    Ensures (do return f (← r)) Q :=
  bind hr fun a ha => pure (hf a ha)

theorem wrong (e : ContentError) : Ensures (wrong e : Reader α) P :=
  throw _

theorem cut : Ensures (cut : Reader α) P :=
  seq fun _ => throw _

theorem ofExcept {x : Except ContentError α} (h : ∀ a, x = .ok a → P a) :
    Ensures (ofExcept x) P := by
  cases x with
  | ok a => exact pure (h a rfl)
  | error e => exact wrong e

theorem located {mark : Mark} {trail : Trail} (hr : Ensures r P) :
    Ensures (located mark trail r) P := by
  intro s n a n' hrun
  -- an error gets a place, but stays an error
  have hcatch : tryCatch ((r.run s).run n) (fun e => .error (e.located mark trail)) =
      .ok (a, n') := hrun
  cases hres : (r.run s).run n with
  | ok res =>
    rw [hres] at hcatch
    exact hr s n a n' (hres.trans hcatch)
  | error e =>
    rw [hres] at hcatch
    cases hcatch

theorem enter {mark : Mark} {depth : Nat} {inside : Nat → Reader α}
    (h : ∀ depth, Ensures (inside depth) P) : Ensures (enter mark depth inside) P := by
  cases depth with
  | zero => exact throw _
  | succ depth => exact h depth

theorem mapM {γ : Type} {f : γ → Reader α} (hf : ∀ c, Ensures (f c) P) (cs : List γ) :
    Ensures (cs.mapM f) fun as => ∀ a ∈ as, P a := by
  induction cs with
  | nil => exact pure nofun
  | cons c cs ih =>
    rw [List.mapM_cons]
    exact bind (hf c) fun a ha => bind ih fun as has =>
      pure (List.forall_mem_cons.mpr ⟨ha, has⟩)

theorem wrongNode (expected : String) (node : Node) :
    Ensures (wrongNode expected node : Reader α) P := by
  cases node with
  | scalar header text style => exact seq fun _ => wrong _
  | «sequence» header items => exact wrong _
  | mapping header entries => exact wrong _
  | «alias» mark anchor => exact cut
  | broken => exact cut

/-- The items of a sequence are read one by one. -/
theorem readSequence {item : Nat → Trail → Node → Reader α}
    (hitem : ∀ depth trail node, Ensures (item depth trail node) P) (depth : Nat) (trail : Trail)
    (node : Node) : Ensures (readSequence depth trail item node) fun as => ∀ a ∈ as, P a := by
  refine seq fun node => located ?_
  cases node with
  | «sequence» header items => exact enter fun depth => mapM (fun _ => hitem depth _ _) _
  | _ =>
    dsimp only
    split
    · exact pure nofun
    · exact wrongNode _ _

end Ensures

end Reader

/-- What the reader of the outermost node ensures is so of what is read from a document. -/
theorem Document.read_ensures {α : Type} {P : α → Prop} {r : Option Node → Reader α}
    (hr : ∀ root, (r root).Ensures P) {d : Document} {a : α} (h : d.read r = .ok a) : P a := by
  obtain ⟨⟨b, n⟩, hb, h⟩ := Except.bind_eq_ok.mp h
  have hread := hr d.root _ _ b n hb
  dsimp only at h
  split at h
  · cases h
  · split at h
    · cases h
    · exact Except.ok.inj h ▸ hread

end Conveyor.Yaml
