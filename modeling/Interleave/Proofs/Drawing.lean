import Mathlib.Data.List.Lex
import Interleave.Proofs.QuotedText
import Interleave.Proofs.TreeOrder

/-! A tree in Graphviz format. The nodes are drawn in the order of their paths, which is depth first order, and the edge
into a node comes from the node at the rest of its path, so that the picture is the tree. -/

namespace Interleave.Tree

variable {α : Type}

mutual

theorem mem_listing {base path : Path} {a : α} : ∀ {t : Tree α},
    (path, a) ∈ t.listing base ↔ ∃ rest sub, path = base ++ rest ∧ t.get? rest = some sub ∧ sub.payload = a
  | node b cs => by
    rw [listing, List.mem_cons, mem_listingAll]
    constructor
    · rintro (heq | ⟨j, rest, c, sub, hc, rfl, hsub, hpayload⟩)
      · obtain ⟨rfl, rfl⟩ := Prod.mk.inj heq
        exact ⟨[], node a cs, (List.append_nil path).symm, rfl, rfl⟩
      · refine ⟨j :: rest, sub, by rw [Nat.zero_add], ?_, hpayload⟩
        exact get?_cons_eq_some.mpr ⟨c, hc, hsub⟩
    · rintro ⟨rest, sub, rfl, hsub, hpayload⟩
      cases rest with
      | nil =>
        obtain rfl := Option.some.inj hsub
        exact .inl (by rw [List.append_nil, ← hpayload, payload])
      | cons j rest =>
        obtain ⟨c, hc, hsub⟩ := get?_cons_eq_some.mp hsub
        exact .inr ⟨j, rest, c, sub, hc, by rw [Nat.zero_add], hsub, hpayload⟩

theorem mem_listingAll {base path : Path} {i : Nat} {a : α} : ∀ {ts : List (Tree α)},
    (path, a) ∈ listingAll base i ts ↔
      ∃ j rest c sub, ts[j]? = some c ∧ path = base ++ (i + j) :: rest ∧ c.get? rest = some sub ∧ sub.payload = a
  | [] => by simp [listingAll]
  | t :: ts => by
    rw [listingAll, List.mem_append, mem_listing, mem_listingAll]
    constructor
    · rintro (⟨rest, sub, rfl, hsub, hpayload⟩ | ⟨j, rest, c, sub, hc, rfl, hsub, hpayload⟩)
      · exact ⟨0, rest, t, sub, rfl, by simp, hsub, hpayload⟩
      · exact ⟨j + 1, rest, c, sub, hc, by rw [Nat.add_assoc, Nat.add_comm 1], hsub, hpayload⟩
    · rintro ⟨j, rest, c, sub, hc, rfl, hsub, hpayload⟩
      cases j with
      | zero =>
        obtain rfl : t = c := Option.some.inj hc
        exact .inl ⟨rest, sub, by simp, hsub, hpayload⟩
      | succ j => exact .inr ⟨j, rest, c, sub, hc, by rw [Nat.add_assoc, Nat.add_comm 1], hsub, hpayload⟩

end

mutual

theorem listing_ascending (base : Path) : ∀ t : Tree α, (t.listing base).Pairwise fun m n => m.1 < n.1
  | node a cs => by
    refine List.pairwise_cons.mpr ⟨?_, listingAll_ascending base 0 cs⟩
    rintro ⟨path, b⟩ hmem
    obtain ⟨j, rest, c, sub, -, rfl, -⟩ := mem_listingAll.mp hmem
    have hlt : base ++ [] < base ++ (0 + j) :: rest := List.append_left_lt (List.nil_lt_cons _ _)
    rwa [List.append_nil] at hlt

theorem listingAll_ascending (base : Path) (i : Nat) : ∀ ts : List (Tree α),
    (listingAll base i ts).Pairwise fun m n => m.1 < n.1
  | [] => .nil
  | t :: ts => by
    refine List.pairwise_append.mpr ⟨listing_ascending (base ++ [i]) t, listingAll_ascending base (i + 1) ts, ?_⟩
    rintro ⟨path, a⟩ hpath ⟨path', a'⟩ hpath'
    obtain ⟨rest, -, rfl, -⟩ := mem_listing.mp hpath
    obtain ⟨j, rest', -, -, -, rfl, -⟩ := mem_listingAll.mp hpath'
    have hlt : i :: rest < (i + 1 + j) :: rest' := List.Lex.rel (by omega)
    rw [List.append_assoc]
    exact List.append_left_lt hlt

end

theorem length_listing (base : Path) (t : Tree α) : (t.listing base).length = t.size := by
  rw [← length_preorder, preorder_eq_listing base, List.length_map]

theorem length_place (parent : Option Nat) (id : Nat) (t : Tree α) : (place parent id t).length = t.size := by
  have hlength := congrArg List.length (place_eq parent id t)
  simpa [length_preorder] using hlength

mutual

theorem place_parent (base : Path) (parent : Option Nat) (id : Nat) : ∀ t : Tree α,
    ∀ x ∈ (t.listing base).zip (place parent id t), (x.1.1 = base ∧ x.2.parent = parent) ∨
      ∃ y ∈ (t.listing base).zip (place parent id t), ∃ j, x.1.1 = y.1.1 ++ [j] ∧ x.2.parent = some y.2.id
  | node a cs => by
    rw [listing, place, List.zip_cons_cons]
    intro x hx
    rcases List.mem_cons.mp hx with rfl | hx
    · exact .inl ⟨rfl, rfl⟩
    · right
      rcases placeAll_parent base 0 id (id + 1) cs x hx with ⟨j, hpath, hparent⟩ | ⟨y, hy, hchild⟩
      · exact ⟨_, List.mem_cons_self, j, hpath, hparent⟩
      · exact ⟨y, List.mem_cons_of_mem _ hy, hchild⟩

theorem placeAll_parent (base : Path) (i parent id : Nat) : ∀ ts : List (Tree α),
    ∀ x ∈ (listingAll base i ts).zip (placeAll parent id ts), (∃ j, x.1.1 = base ++ [j] ∧ x.2.parent = some parent) ∨
      ∃ y ∈ (listingAll base i ts).zip (placeAll parent id ts), ∃ j, x.1.1 = y.1.1 ++ [j] ∧ x.2.parent = some y.2.id
  | [] => by simp [listingAll, placeAll]
  | t :: ts => by
    have hlength : (t.listing (base ++ [i])).length = (place (some parent) id t).length := by
      rw [length_listing, length_place]
    rw [listingAll, placeAll, List.zip_append hlength]
    intro x hx
    rcases List.mem_append.mp hx with hx | hx
    · rcases place_parent (base ++ [i]) (some parent) id t x hx with ⟨hpath, hparent⟩ | ⟨y, hy, hchild⟩
      · exact .inl ⟨i, hpath, hparent⟩
      · exact .inr ⟨y, List.mem_append_left _ hy, hchild⟩
    · rcases placeAll_parent base (i + 1) parent (id + t.size) ts x hx with hroot | ⟨y, hy, hchild⟩
      · exact .inl hroot
      · exact .inr ⟨y, List.mem_append_right _ hy, hchild⟩

end

/-- A graph as it is drawn: label and attributes of the nodes, which are numbered from zero, and the edges from node to
node with their labels. -/
structure Picture where
  nodes : List (ByteArray × ByteArray)
  edges : List (Nat × Nat × ByteArray)

namespace Picture

def nodeLine (i : Nat) (n : ByteArray × ByteArray) : ByteArray :=
  s!"  n{i} [label={Text.quoteBytes n.1}".toUTF8 ++ (if n.2.isEmpty then n.2 else ", ".toUTF8 ++ n.2) ++
    "];\n".toUTF8

def edgeLine (e : Nat × Nat × ByteArray) : ByteArray :=
  s!"  n{e.1} -> n{e.2.1} [label={Text.quoteBytes e.2.2}];\n".toUTF8

def bytes (name : ByteArray) (d : Picture) : ByteArray :=
  s!"digraph {Text.quoteBytes name} \x7b\n  node [shape=circle];\n".toUTF8 ++
    Text.concat (d.nodes.mapIdx nodeLine) ++ "\n".toUTF8 ++ Text.concat (d.edges.map edgeLine) ++ "\x7d\n".toUTF8

/-- The picture shows a tree with the given nodes in depth first order: each is drawn under its position, and the edge
into it comes from the position of its parent. -/
structure Shows (d : Picture) (style : DotStyle α) (t : Tree α) (nodes : List (Path × α)) : Prop where
  ascending : nodes.Pairwise fun m n => m.1 < n.1
  mem_iff : ∀ path a, (path, a) ∈ nodes ↔ ∃ sub, t.get? path = some sub ∧ sub.payload = a
  length_eq : nodes.length = t.size
  preorder_eq : nodes.map (·.2) = t.preorder
  nodes_eq : d.nodes = nodes.map fun n => (style.label n.2, style.attributes n.2)
  length_edges : d.edges.length + 1 = nodes.length
  edge : ∀ (i : Nat) path a, nodes[i + 1]? = some (path, a) → ∃ p ≤ i, ∃ parent b j,
    nodes[p]? = some (parent, b) ∧ path = parent ++ [j] ∧ d.edges[i]? = some (p, i + 1, style.edge a)
  isomorphic : ∀ p i : Nat, (∃ label, (p, i, label) ∈ d.edges) ↔
    ∃ path a j b, nodes[p]? = some (path, a) ∧ nodes[i]? = some (path ++ [j], b)

end Picture

def picture (style : DotStyle α) (t : Tree α) : Picture where
  nodes := (place none 0 t).map fun q => (style.label q.payload, style.attributes q.payload)
  edges := (place none 0 t).tail.map fun q => (q.parent.getD 0, q.id, style.edge q.payload)

theorem id_of_place {t : Tree α} {i : Nat} {q : Placed α} (h : (place none 0 t)[i]? = some q) :
    q.id = i ∧ t.preorder[i]? = some q.payload := by
  have hpair := congrArg (fun l => l[i]?) (place_eq none 0 t)
  simp only [List.getElem?_map, h, Option.map_some] at hpair
  obtain ⟨hid, hpayload⟩ := List.getElem?_zip_eq_some.mp hpair.symm
  obtain ⟨hi, hid⟩ := List.getElem?_eq_some_iff.mp hid
  rw [List.getElem_range', Nat.zero_add, Nat.one_mul] at hid
  exact ⟨hid.symm, hpayload⟩

theorem listing_zero (t : Tree α) : (t.listing [])[0]? = some ([], t.payload) := by
  obtain ⟨a, cs⟩ := t
  rw [listing, List.getElem?_cons_zero, payload]

theorem position_lt_iff {t : Tree α} {p i : Nat} {m n : Path × α} (hm : (t.listing [])[p]? = some m)
    (hn : (t.listing [])[i]? = some n) : p < i ↔ m.1 < n.1 := by
  obtain ⟨hp, rfl⟩ := List.getElem?_eq_some_iff.mp hm
  obtain ⟨hi, rfl⟩ := List.getElem?_eq_some_iff.mp hn
  have hascending := List.pairwise_iff_getElem.mp (listing_ascending [] t)
  constructor
  · exact hascending p i hp hi
  · intro h
    by_contra hle
    rcases (not_lt.mp hle).eq_or_lt with rfl | hlt
    · exact lt_irrefl _ h
    · exact lt_asymm h (hascending i p hi hp hlt)

theorem position_unique {t : Tree α} {p i : Nat} {m n : Path × α} (hm : (t.listing [])[p]? = some m)
    (hn : (t.listing [])[i]? = some n) (h : m.1 = n.1) : p = i := by
  have hle : ¬ i < p := fun hlt => ((position_lt_iff hn hm).mp hlt).ne' h
  have hge : ¬ p < i := fun hlt => ((position_lt_iff hm hn).mp hlt).ne h
  exact le_antisymm (not_lt.mp hle) (not_lt.mp hge)

theorem place_getElem? {t : Tree α} {i : Nat} {path : Path} {a : α} (h : (t.listing [])[i]? = some (path, a)) :
    ∃ q, (place none 0 t)[i]? = some q ∧ q.id = i ∧ q.payload = a ∧
      ((path = [] ∧ q.parent = none) ∨ ∃ p < i, ∃ parent b j,
        (t.listing [])[p]? = some (parent, b) ∧ path = parent ++ [j] ∧ q.parent = some p) := by
  obtain ⟨q, hq⟩ : ∃ q, (place none 0 t)[i]? = some q := by
    obtain ⟨hi, -⟩ := List.getElem?_eq_some_iff.mp h
    rw [length_listing, ← length_place none 0] at hi
    exact ⟨_, List.getElem?_eq_getElem hi⟩
  obtain ⟨hid, hpayload⟩ := id_of_place hq
  rw [preorder_eq_listing [], List.getElem?_map, h] at hpayload
  refine ⟨q, hq, hid, (Option.some.inj hpayload).symm, ?_⟩
  have hzip := List.mem_of_getElem? (List.getElem?_zip_eq_some.mpr ⟨h, hq⟩ : _ = some ((path, a), q))
  rcases place_parent [] none 0 t _ hzip with hroot | ⟨⟨⟨parent, b⟩, r⟩, hr, j, hpath, hparent⟩
  · exact .inl hroot
  · obtain ⟨p, hp⟩ := List.mem_iff_getElem?.mp hr
    obtain ⟨hnode, hplaced⟩ := List.getElem?_zip_eq_some.mp hp
    obtain ⟨rfl, -⟩ := id_of_place hplaced
    have hlt : parent < path := by
      have hlt : parent ++ [] < parent ++ [j] := List.append_left_lt (List.nil_lt_cons _ _)
      rwa [List.append_nil, ← hpath] at hlt
    exact .inr ⟨r.id, (position_lt_iff hnode h).mpr hlt, parent, b, j, hnode, hpath, hparent⟩

theorem picture_edge {style : DotStyle α} {t : Tree α} {i : Nat} {path : Path} {a : α}
    (h : (t.listing [])[i + 1]? = some (path, a)) : ∃ p ≤ i, ∃ parent b j,
      (t.listing [])[p]? = some (parent, b) ∧ path = parent ++ [j] ∧
        (picture style t).edges[i]? = some (p, i + 1, style.edge a) := by
  obtain ⟨q, hq, hid, rfl, ⟨rfl, -⟩ | ⟨p, hlt, parent, b, j, hnode, hpath, hparent⟩⟩ := place_getElem? h
  · exact absurd (position_unique (listing_zero t) h rfl) (Nat.succ_ne_zero i).symm
  · refine ⟨p, Nat.le_of_lt_succ hlt, parent, b, j, hnode, hpath, ?_⟩
    simp [picture, List.getElem?_tail, hq, hid, hparent]

theorem length_picture_edges (style : DotStyle α) (t : Tree α) :
    (picture style t).edges.length + 1 = (t.listing []).length := by
  have hpos : 0 < (t.listing []).length := (List.getElem?_eq_some_iff.mp (listing_zero t)).1
  rw [picture, List.length_map, List.length_tail, length_place, ← length_listing [] t]
  omega

theorem picture_shows (style : DotStyle α) (t : Tree α) : (picture style t).Shows style t (t.listing []) where
  ascending := listing_ascending [] t
  mem_iff path a := by
    rw [mem_listing]
    simp
  length_eq := length_listing [] t
  preorder_eq := (preorder_eq_listing [] t).symm
  nodes_eq := by
    have hpayloads : (place none 0 t).map (·.payload) = (t.listing []).map (·.2) := by
      have hpairs := congrArg (List.map Prod.snd) (place_eq none 0 t)
      rw [List.map_map, List.map_snd_zip (by rw [length_preorder, List.length_range']),
        preorder_eq_listing []] at hpairs
      exact hpairs
    have hdrawn := congrArg (List.map fun a => (style.label a, style.attributes a)) hpayloads
    rwa [List.map_map, List.map_map] at hdrawn
  length_edges := length_picture_edges style t
  edge _ _ _ h := picture_edge h
  isomorphic p i := by
    constructor
    · rintro ⟨label, hmem⟩
      obtain ⟨k, hk⟩ := List.mem_iff_getElem?.mp hmem
      obtain ⟨⟨path, a⟩, hnode⟩ : ∃ n, (t.listing [])[k + 1]? = some n := by
        obtain ⟨hlt, -⟩ := List.getElem?_eq_some_iff.mp hk
        exact ⟨_, List.getElem?_eq_getElem (by rw [← length_picture_edges style t]; omega)⟩
      obtain ⟨p', -, parent, b, j, hparent, rfl, hedge⟩ := picture_edge hnode
      rw [hk] at hedge
      obtain ⟨rfl, rfl, -⟩ := Option.some.inj hedge
      exact ⟨parent, b, j, a, hparent, hnode⟩
    · rintro ⟨path, a, j, b, hparent, hnode⟩
      cases i with
      | zero =>
        rw [listing_zero] at hnode
        simp at hnode
      | succ k =>
        obtain ⟨p', -, parent, b', j', hparent', hpath, hedge⟩ := picture_edge hnode
        obtain rfl : path = parent := (List.append_inj' hpath rfl).1
        obtain rfl := position_unique hparent hparent' rfl
        exact ⟨_, List.mem_of_getElem? hedge⟩

theorem parent_of_place {t : Tree α} {i : Nat} {q : Placed α} (h : (place none 0 t)[i + 1]? = some q) :
    ∃ p, q.parent = some p := by
  obtain ⟨⟨path, a⟩, hnode⟩ : ∃ n, (t.listing [])[i + 1]? = some n := by
    obtain ⟨hi, -⟩ := List.getElem?_eq_some_iff.mp h
    rw [length_place, ← length_listing []] at hi
    exact ⟨_, List.getElem?_eq_getElem hi⟩
  obtain ⟨q', hq', -, -, ⟨rfl, -⟩ | ⟨p, -, -, -, -, -, -, hparent⟩⟩ := place_getElem? hnode
  · exact absurd (position_unique (listing_zero t) hnode rfl) (Nat.succ_ne_zero i).symm
  · obtain rfl : q = q' := Option.some.inj (h.symm.trans hq')
    exact ⟨p, hparent⟩

theorem dotBytes_eq_bytes (name : ByteArray) (style : DotStyle α) (t : Tree α) :
    t.dotBytes name style false = (picture style t).bytes name := by
  have hnodes : (place none 0 t).map (dotNode style) = (picture style t).nodes.mapIdx Picture.nodeLine := by
    refine List.ext_getElem? fun i => ?_
    rw [picture, List.getElem?_map, List.getElem?_mapIdx, List.getElem?_map]
    cases hq : (place none 0 t)[i]? with
    | none => rfl
    | some q =>
      obtain ⟨rfl, -⟩ := id_of_place hq
      rfl
  have hedges : (place none 0 t).tail.map (dotEdge style) = (picture style t).edges.map Picture.edgeLine := by
    refine List.ext_getElem? fun i => ?_
    rw [picture, List.getElem?_map, List.getElem?_map, List.getElem?_map, List.getElem?_tail]
    cases hq : (place none 0 t)[i + 1]? with
    | none => rfl
    | some q =>
      obtain ⟨p, hparent⟩ := parent_of_place hq
      simp [dotEdge, hparent, Picture.edgeLine]
  have hroot : Text.concat ((place none 0 t).map (dotEdge style)) =
      Text.concat ((place none 0 t).tail.map (dotEdge style)) := by
    obtain ⟨a, cs⟩ := t
    rfl
  simp only [dotBytes, Picture.bytes, Bool.false_eq_true, if_false, hnodes, hroot, hedges]

def IsText (bytes : ByteArray) : Prop := ∃ s : String, bytes = s.toUTF8

theorem isText_toUTF8 (s : String) : IsText s.toUTF8 := ⟨s, rfl⟩

theorem IsText.append {a b : ByteArray} (ha : IsText a) (hb : IsText b) : IsText (a ++ b) := by
  obtain ⟨s, rfl⟩ := ha
  obtain ⟨s', rfl⟩ := hb
  exact ⟨s ++ s', String.toByteArray_append.symm⟩

theorem isText_concat {β : Type} {f : β → ByteArray} (h : ∀ b, IsText (f b)) (l : List β) :
    IsText (Text.concat (l.map f)) := by
  suffices hfold : ∀ bytes, IsText bytes → IsText ((l.map f).foldl (· ++ ·) bytes) from hfold _ (isText_toUTF8 "")
  induction l with
  | nil => exact fun _ hbytes => hbytes
  | cons b l ih => exact fun bytes hbytes => ih _ (hbytes.append (h b))

section Texts

variable (label attributes edge : α → String)

theorem isText_dotNode (q : Placed α) : IsText (dotNode (.ofTexts label attributes edge) q) := by
  refine (IsText.append (isText_toUTF8 _) ?_).append (isText_toUTF8 _)
  split_ifs
  · exact isText_toUTF8 _
  · exact (isText_toUTF8 _).append (isText_toUTF8 _)

theorem isText_dotEdge (q : Placed α) : IsText (dotEdge (.ofTexts label attributes edge) q) := by
  rw [dotEdge]
  split
  · exact isText_toUTF8 _
  · exact isText_toUTF8 ""

theorem toUTF8_dot (name : String) (hanging : Bool) (t : Tree α) :
    (t.dot name (.ofTexts label attributes edge) hanging).toUTF8 =
      t.dotBytes name.toUTF8 (.ofTexts label attributes edge) hanging := by
  have hnodes := isText_concat (isText_dotNode label attributes edge) (place (if hanging then some 0 else none) 0 t)
  have hedges := isText_concat (isText_dotEdge label attributes edge) (place (if hanging then some 0 else none) 0 t)
  have htext : IsText (t.dotBytes name.toUTF8 (.ofTexts label attributes edge) hanging) :=
    ((((isText_toUTF8 _).append hnodes).append (isText_toUTF8 _)).append hedges).append (isText_toUTF8 _)
  obtain ⟨s, hs⟩ := htext
  rw [dot, hs, Text.ofBytes_toUTF8]

end Texts

inductive Edit (α : Type) where
  | addChild (path : Path) (a : α)
  | update (path : Path) (f : α → α)

def Edit.apply (t : Tree α) : Edit α → Tree α
  | addChild path a => t.addChild path a
  | update path f => t.update path f

def built (root : α) (edits : List (Edit α)) : Tree α := edits.foldl Edit.apply (leaf root)

/-- Graphviz format draws the tree as it is, however it was built: there is one line for each node, in depth first
order, and one for the edge into each node but the first, from its parent. Drawings of texts are texts. -/
theorem dot_draws_tree (root : α) (edits : List (Edit α)) :
    (∀ name style, ∃ d nodes, (built root edits).dotBytes name style false = Picture.bytes name d ∧
      d.Shows style (built root edits) nodes) ∧
      ∀ name label attributes edge,
        ((built root edits).dot name (.ofTexts label attributes edge) false).toUTF8 =
          (built root edits).dotBytes name.toUTF8 (.ofTexts label attributes edge) false := by
  constructor
  · intro name style
    exact ⟨picture style _, _, dotBytes_eq_bytes name style _, picture_shows style _⟩
  · intro name label attributes edge
    exact toUTF8_dot label attributes edge name false _

end Interleave.Tree
