import Interleave.Exploration.Graph

/-! Paths into a tree stay valid while the tree grows. -/

namespace Interleave.Tree

variable {α β : Type}

theorem get?_cons_eq_some {a : α} {cs : List (Tree α)} {i : Nat} {path : Path} {sub : Tree α} :
    (node a cs).get? (i :: path) = some sub ↔ ∃ c, cs[i]? = some c ∧ c.get? path = some sub := by
  rw [get?, Option.bind_eq_some_iff]

def Grows (key : α → β) (t t' : Tree α) : Prop :=
  ∀ path sub, t.get? path = some sub → ∃ sub', t'.get? path = some sub' ∧ key sub'.payload = key sub.payload

variable {key : α → β}

theorem Grows.refl (t : Tree α) : Grows key t t := fun _ sub h => ⟨sub, h, rfl⟩

theorem Grows.node {a a' : α} {cs cs' : List (Tree α)} (hkey : key a' = key a)
    (hcs : ∀ (i : Nat) c, cs[i]? = some c → ∃ c', cs'[i]? = some c' ∧ Grows key c c') :
    Grows key (node a cs) (node a' cs') := by
  intro path sub h
  cases path with
  | nil =>
    obtain rfl : Tree.node a cs = sub := Option.some.inj h
    exact ⟨_, rfl, hkey⟩
  | cons i path =>
    obtain ⟨c, hc, hsub⟩ := get?_cons_eq_some.mp h
    obtain ⟨c', hc', hgrows⟩ := hcs i c hc
    obtain ⟨sub', hsub', hpayload⟩ := hgrows path sub hsub
    exact ⟨sub', get?_cons_eq_some.mpr ⟨c', hc', hsub'⟩, hpayload⟩

theorem modifyAt_grows {f : Tree α → Tree α} (hf : ∀ t, Grows key t (f t)) (path : Path) (t : Tree α) :
    Grows key t (modifyAt f path t) := by
  induction path generalizing t with
  | nil => exact hf t
  | cons i path ih =>
    obtain ⟨a, cs⟩ := t
    apply Grows.node rfl
    intro j c hc
    rw [List.getElem?_modify, hc]
    by_cases hij : i = j
    · exact ⟨modifyAt f path c, by simp [hij], ih c⟩
    · exact ⟨c, by simp [hij], .refl c⟩

theorem addChild_grows (path : Path) (a : α) (t : Tree α) : Grows key t (addChild path a t) := by
  apply modifyAt_grows
  rintro ⟨b, cs⟩
  apply Grows.node rfl
  intro i c hc
  obtain ⟨hi, -⟩ := List.getElem?_eq_some_iff.mp hc
  exact ⟨c, (List.getElem?_append_left hi).trans hc, .refl c⟩

theorem update_grows {f : α → α} (hf : ∀ a, key (f a) = key a) (path : Path) (t : Tree α) :
    Grows key t (update path f t) := by
  apply modifyAt_grows
  rintro ⟨a, cs⟩
  exact .node (hf a) fun i c hc => ⟨c, hc, .refl c⟩

theorem nextChild_cons {a : α} {cs : List (Tree α)} {i : Nat} {c : Tree α} (hc : cs[i]? = some c)
    (path : Path) : (node a cs).nextChild (i :: path) = i :: c.nextChild path := by
  simp [nextChild, get?, hc]

theorem get?_nextChild {t sub : Tree α} {path : Path} (h : t.get? path = some sub) (a : α) :
    (addChild path a t).get? (t.nextChild path) = some (leaf a) := by
  induction path generalizing t with
  | nil =>
    obtain ⟨b, cs⟩ := t
    simp [addChild, modifyAt, nextChild, get?, children]
  | cons i path ih =>
    obtain ⟨b, cs⟩ := t
    obtain ⟨c, hc, hsub⟩ := get?_cons_eq_some.mp h
    rw [nextChild_cons hc]
    refine get?_cons_eq_some.mpr ⟨addChild path a c, ?_, ih hsub⟩
    rw [List.getElem?_modify_eq, hc]
    rfl

end Interleave.Tree
