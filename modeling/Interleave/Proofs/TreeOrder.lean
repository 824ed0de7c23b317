import Interleave.Proofs.TreePaths
import Mathlib.Data.List.Induction

/-! The nodes of a tree in depth first order. On the way down the last children a node is followed by nothing but its
own subtree, so what is added below it comes at the end of the order. -/

namespace Interleave.Tree

variable {α β : Type}

mutual

def listing (path : Path) : Tree α → List (Path × α)
  | node a cs => (path, a) :: listingAll path 0 cs

def listingAll (path : Path) (i : Nat) : List (Tree α) → List (Path × α)
  | [] => []
  | t :: ts => listing (path ++ [i]) t ++ listingAll path (i + 1) ts

end

mutual

theorem preorder_eq_listing (path : Path) (t : Tree α) : t.preorder = (t.listing path).map (·.2) := by
  obtain ⟨a, cs⟩ := t
  rw [preorder, listing, List.map_cons, preorderAll_eq_listingAll path 0 cs]

theorem preorderAll_eq_listingAll (path : Path) (i : Nat) (ts : List (Tree α)) :
    preorderAll ts = (listingAll path i ts).map (·.2) := by
  cases ts with
  | nil => rfl
  | cons t ts =>
    rw [preorderAll, listingAll, List.map_append, preorder_eq_listing (path ++ [i]) t,
      preorderAll_eq_listingAll path (i + 1) ts]

end

mutual

theorem length_preorder (t : Tree α) : t.preorder.length = t.size := by
  obtain ⟨a, cs⟩ := t
  rw [preorder, size, List.length_cons, length_preorderAll cs, Nat.add_comm]

theorem length_preorderAll (ts : List (Tree α)) : (preorderAll ts).length = sizeAll ts := by
  cases ts with
  | nil => rfl
  | cons t ts => rw [preorderAll, sizeAll, List.length_append, length_preorder t, length_preorderAll ts]

end

mutual

theorem find?_eq_listing (p : α → Bool) (path : Path) (t : Tree α) :
    t.find? p path = ((t.listing path).find? (p ·.2)).map (·.1) := by
  obtain ⟨a, cs⟩ := t
  rw [find?, listing, List.find?_cons]
  cases p a with
  | true => rfl
  | false => exact findAll?_eq_listingAll p path 0 cs

theorem findAll?_eq_listingAll (p : α → Bool) (path : Path) (i : Nat) (ts : List (Tree α)) :
    findAll? p path i ts = ((listingAll path i ts).find? (p ·.2)).map (·.1) := by
  cases ts with
  | nil => rfl
  | cons t ts =>
    rw [findAll?, listingAll, List.find?_append, find?_eq_listing p (path ++ [i]) t,
      findAll?_eq_listingAll p path (i + 1) ts]
    cases (t.listing (path ++ [i])).find? (p ·.2) <;> rfl

end

mutual

theorem place_eq (parent : Option Nat) (id : Nat) (t : Tree α) :
    (place parent id t).map (fun p => (p.id, p.payload)) = (List.range' id t.size).zip t.preorder := by
  obtain ⟨a, cs⟩ := t
  rw [place, preorder, size, Nat.add_comm 1, List.range'_succ, List.map_cons, placeAll_eq id (id + 1) cs]
  rfl

theorem placeAll_eq (parent id : Nat) (ts : List (Tree α)) :
    (placeAll parent id ts).map (fun p => (p.id, p.payload)) =
      (List.range' id (sizeAll ts)).zip (preorderAll ts) := by
  cases ts with
  | nil => rfl
  | cons t ts =>
    have hlength : (List.range' id t.size).length = t.preorder.length := by
      rw [List.length_range', length_preorder]
    rw [placeAll, preorderAll, sizeAll, List.map_append, place_eq (some parent) id t,
      placeAll_eq parent (id + t.size) ts, ← List.range'_append_1, List.zip_append hlength]

end

def graft (a : α) : Tree α → Tree α
  | node b cs => node b (cs ++ [leaf a])

def relabel (f : α → α) : Tree α → Tree α
  | node b cs => node (f b) cs

theorem addChild_eq (path : Path) (a : α) (t : Tree α) : addChild path a t = modifyAt (graft a) path t := rfl

def Last : Path → Tree α → Prop
  | [], _ => True
  | i :: path, node _ cs => ∃ front c, cs = front ++ [c] ∧ i = front.length ∧ Last path c

theorem Last.of_append {path rest : Path} {t : Tree α} (h : Last (path ++ rest) t) : Last path t := by
  induction path generalizing t with
  | nil => trivial
  | cons i path ih =>
    obtain ⟨a, cs⟩ := t
    obtain ⟨front, c, hcs, hi, hc⟩ := h
    exact ⟨front, c, hcs, hi, ih hc⟩

theorem modify_concat (front : List (Tree α)) (c : Tree α) (f : Tree α → Tree α) :
    (front ++ [c]).modify front.length f = front ++ [f c] := by
  induction front with
  | nil => rfl
  | cons d front ih => exact congrArg (d :: ·) ih

theorem Last.modifyAt {path : Path} {t : Tree α} (h : Last path t) (f : Tree α → Tree α) :
    Last path (modifyAt f path t) := by
  induction path generalizing t with
  | nil => trivial
  | cons i path ih =>
    obtain ⟨a, cs⟩ := t
    obtain ⟨front, c, rfl, rfl, hc⟩ := h
    exact ⟨front, Tree.modifyAt f path c, modify_concat front c _, rfl, ih hc⟩

theorem Last.nextChild {path : Path} {t : Tree α} (h : Last path t) (a : α) :
    Last (t.nextChild path) (addChild path a t) := by
  induction path generalizing t with
  | nil =>
    obtain ⟨b, cs⟩ := t
    exact ⟨cs, leaf a, rfl, rfl, trivial⟩
  | cons i path ih =>
    obtain ⟨b, cs⟩ := t
    obtain ⟨front, c, rfl, rfl, hc⟩ := h
    rw [nextChild_cons List.getElem?_concat_length]
    exact ⟨front, addChild path a c, modify_concat front c _, rfl, ih hc⟩

theorem listingAll_append (path : Path) (i : Nat) (ts us : List (Tree α)) :
    listingAll path i (ts ++ us) = listingAll path i ts ++ listingAll path (i + ts.length) us := by
  induction ts generalizing i with
  | nil => rfl
  | cons t ts ih =>
    rw [List.cons_append, listingAll, listingAll, ih, List.append_assoc, List.length_cons, Nat.add_assoc,
      Nat.add_comm 1]

theorem Last.listing_modifyAt {path : Path} {t : Tree α} (h : Last path t) (f : Tree α → Tree α) (base : Path) :
    ∃ front sub, t.get? path = some sub ∧ t.listing base = front ++ sub.listing (base ++ path) ∧
      (Tree.modifyAt f path t).listing base = front ++ (f sub).listing (base ++ path) := by
  induction path generalizing t base with
  | nil => exact ⟨[], t, rfl, by rw [List.append_nil]; rfl, by rw [List.append_nil]; rfl⟩
  | cons i path ih =>
    obtain ⟨a, cs⟩ := t
    obtain ⟨front, c, rfl, rfl, hc⟩ := h
    obtain ⟨before, sub, hget, hlisted, hchanged⟩ := ih hc (base ++ [front.length])
    have hsplit : ∀ c', (node a (front ++ [c'])).listing base =
        (base, a) :: (listingAll base 0 front ++ c'.listing (base ++ [front.length])) := by
      intro c'
      rw [listing, listingAll_append, listingAll, listingAll, List.append_nil, Nat.zero_add]
    rw [List.append_assoc, List.singleton_append] at hlisted hchanged
    refine ⟨(base, a) :: (listingAll base 0 front ++ before), sub, ?_, ?_, ?_⟩
    · exact get?_cons_eq_some.mpr ⟨c, List.getElem?_concat_length, hget⟩
    · rw [hsplit, hlisted, List.cons_append, List.append_assoc]
    · rw [Tree.modifyAt, modify_concat, hsplit, hchanged, List.cons_append, List.append_assoc]

theorem Last.exists_get? {path : Path} {t : Tree α} (h : Last path t) : ∃ sub, t.get? path = some sub := by
  obtain ⟨-, sub, hget, -⟩ := h.listing_modifyAt id []
  exact ⟨sub, hget⟩

theorem Last.listing_addChild {path : Path} {t : Tree α} (h : Last path t) (a : α) :
    (addChild path a t).listing [] = t.listing [] ++ [(t.nextChild path, a)] := by
  obtain ⟨front, ⟨b, cs⟩, hget, hlisted, hadded⟩ := h.listing_modifyAt (graft a) []
  have hnext : t.nextChild path = path ++ [cs.length] := by
    rw [Tree.nextChild, hget]
    rfl
  rw [addChild_eq, hadded, hlisted, hnext]
  simp [graft, listing, listingAll_append, listingAll, leaf]

theorem Last.preorder_addChild {path : Path} {t : Tree α} (h : Last path t) (a : α) :
    (addChild path a t).preorder = t.preorder ++ [a] := by
  rw [preorder_eq_listing [], preorder_eq_listing [], h.listing_addChild, List.map_append]
  rfl

theorem Last.listing_update {path : Path} {t : Tree α} {a : α} (h : Last path t)
    (hleaf : t.get? path = some (leaf a)) (f : α → α) :
    ∃ front, t.listing [] = front ++ [(path, a)] ∧ (update path f t).listing [] = front ++ [(path, f a)] := by
  obtain ⟨front, sub, hget, hlisted, hchanged⟩ := h.listing_modifyAt (relabel f) []
  obtain rfl : leaf a = sub := Option.some.inj (hleaf.symm.trans hget)
  exact ⟨front, hlisted, hchanged⟩

theorem get?_leaf {path : Path} {a : α} {sub : Tree α} (h : (leaf a).get? path = some sub) :
    path = [] ∧ sub = leaf a := by
  cases path with
  | nil => exact ⟨rfl, (Option.some.inj h).symm⟩
  | cons i path =>
    obtain ⟨c, hc, -⟩ := get?_cons_eq_some.mp h
    cases hc

theorem get?_addChild {path q : Path} {t sub sub' : Tree α} {a : α} (hpath : t.get? path = some sub)
    (h : (addChild path a t).get? q = some sub') :
    (q = t.nextChild path ∧ sub' = leaf a) ∨ ∃ old, t.get? q = some old ∧ sub'.payload = old.payload ∧
      (q ≠ path → sub'.isLeaf = old.isLeaf) := by
  induction path generalizing t q with
  | nil =>
    obtain ⟨b, cs⟩ := t
    cases q with
    | nil =>
      obtain rfl := Option.some.inj h
      exact .inr ⟨node b cs, rfl, rfl, fun hne => absurd rfl hne⟩
    | cons i q =>
      obtain ⟨c, hc, hsub⟩ := get?_cons_eq_some.mp h
      -- The way goes through a child that was there, or ends at the new one.
      by_cases hi : i < cs.length
      · rw [List.getElem?_append_left hi] at hc
        exact .inr ⟨sub', get?_cons_eq_some.mpr ⟨c, hc, hsub⟩, rfl, fun _ => rfl⟩
      · obtain ⟨hlt, -⟩ := List.getElem?_eq_some_iff.mp hc
        rw [List.length_append, List.length_singleton] at hlt
        obtain rfl : i = cs.length := by omega
        rw [List.getElem?_concat_length] at hc
        obtain rfl := Option.some.inj hc
        cases q with
        | nil => exact .inl ⟨rfl, (Option.some.inj hsub).symm⟩
        | cons j q =>
          obtain ⟨d, hd, -⟩ := get?_cons_eq_some.mp hsub
          cases hd
  | cons j path ih =>
    obtain ⟨b, cs⟩ := t
    obtain ⟨d, hd, hget⟩ := get?_cons_eq_some.mp hpath
    cases q with
    | nil =>
      obtain rfl := Option.some.inj h
      refine .inr ⟨node b cs, rfl, rfl, fun _ => ?_⟩
      cases cs with
      | nil => cases hd
      | cons c cs => cases j <;> rfl
    | cons i q =>
      obtain ⟨c, hc, hsub⟩ := get?_cons_eq_some.mp h
      rw [List.getElem?_modify] at hc
      rw [nextChild_cons hd]
      -- Only the child on the path has changed.
      by_cases hij : j = i
      · subst hij
        simp only [hd, if_true, Option.map_eq_map, Option.map_some, Option.some.injEq] at hc
        subst hc
        rcases ih hget hsub with ⟨rfl, rfl⟩ | ⟨old, hold, hpayload, hleaf⟩
        · exact .inl ⟨rfl, rfl⟩
        · refine .inr ⟨old, get?_cons_eq_some.mpr ⟨d, hd, hold⟩, hpayload, fun hne => hleaf ?_⟩
          rintro rfl
          exact hne rfl
      · simp only [hij, if_false, id_map'] at hc
        exact .inr ⟨sub', get?_cons_eq_some.mpr ⟨c, hc, hsub⟩, rfl, fun _ => rfl⟩

theorem get?_update {path q : Path} {f : α → α} {t sub' : Tree α} (h : (update path f t).get? q = some sub') :
    ∃ old, t.get? q = some old ∧ sub'.isLeaf = old.isLeaf ∧
      (sub'.payload = old.payload ∨ (q = path ∧ sub'.payload = f old.payload)) := by
  induction path generalizing t q with
  | nil =>
    obtain ⟨b, cs⟩ := t
    cases q with
    | nil =>
      obtain rfl := Option.some.inj h
      exact ⟨node b cs, rfl, rfl, .inr ⟨rfl, rfl⟩⟩
    | cons i q =>
      obtain ⟨c, hc, hsub⟩ := get?_cons_eq_some.mp h
      exact ⟨sub', get?_cons_eq_some.mpr ⟨c, hc, hsub⟩, rfl, .inl rfl⟩
  | cons j path ih =>
    obtain ⟨b, cs⟩ := t
    cases q with
    | nil =>
      obtain rfl := Option.some.inj h
      refine ⟨node b cs, rfl, ?_, .inl rfl⟩
      cases cs with
      | nil => cases j <;> rfl
      | cons c cs => cases j <;> rfl
    | cons i q =>
      obtain ⟨c, hc, hsub⟩ := get?_cons_eq_some.mp h
      rw [List.getElem?_modify] at hc
      obtain ⟨d, hd, hdc⟩ := Option.map_eq_some_iff.mp hc
      by_cases hij : j = i
      · rw [if_pos hij] at hdc
        subst hdc
        obtain ⟨old, hold, hleaf, hpayload⟩ := ih hsub
        refine ⟨old, get?_cons_eq_some.mpr ⟨d, hd, hold⟩, hleaf, hpayload.imp id ?_⟩
        rintro ⟨rfl, hnew⟩
        exact ⟨hij ▸ rfl, hnew⟩
      · rw [if_neg hij] at hdc
        subst hdc
        exact ⟨sub', get?_cons_eq_some.mpr ⟨d, hd, hsub⟩, rfl, .inl rfl⟩

theorem get?_append (t : Tree α) (path rest : Path) : t.get? (path ++ rest) = (t.get? path).bind (·.get? rest) := by
  induction path generalizing t with
  | nil => rfl
  | cons i path ih =>
    obtain ⟨a, cs⟩ := t
    rw [List.cons_append, get?, get?, Option.bind_assoc]
    exact congrArg _ (funext ih)

theorem trail_concat {t sub : Tree α} {path : Path} {i : Nat} (h : t.get? (path ++ [i]) = some sub) :
    t.trail (path ++ [i]) = t.trail path ++ [sub.payload] := by
  induction path generalizing t with
  | nil =>
    obtain ⟨a, cs⟩ := t
    obtain ⟨c, hc, hsub⟩ := get?_cons_eq_some.mp h
    obtain rfl := Option.some.inj hsub
    obtain ⟨b, ds⟩ := c
    simp [trail, hc, payload]
  | cons j path ih =>
    obtain ⟨a, cs⟩ := t
    obtain ⟨c, hc, hsub⟩ := get?_cons_eq_some.mp h
    simp [trail, hc, ih hsub]

theorem Grows.trail {key : α → β} {t t' : Tree α} (h : Grows key t t') {path : Path} {sub : Tree α}
    (hpath : t.get? path = some sub) : (t'.trail path).map key = (t.trail path).map key := by
  induction path using List.reverseRecOn generalizing sub with
  | nil =>
    obtain ⟨sub', hsub', hkey⟩ := h [] t rfl
    obtain rfl := Option.some.inj hsub'
    obtain ⟨a, cs⟩ := t
    obtain ⟨a', cs'⟩ := t'
    exact congrArg (fun b => [b]) hkey
  | append_singleton path i ih =>
    obtain ⟨sub', hsub', hkey⟩ := h _ sub hpath
    rw [get?_append] at hpath
    obtain ⟨parent, hparent, hchild⟩ := Option.bind_eq_some_iff.mp hpath
    rw [trail_concat hsub', trail_concat (by rw [get?_append, hparent]; exact hchild), List.map_append,
      List.map_append, ih hparent]
    exact congrArg (fun b => _ ++ [b]) hkey

end Interleave.Tree
