import Interleave.Proofs.InterpreterLaws
import Interleave.Proofs.QuotedText
import Mathlib.Data.List.Forall2
import Mathlib.Data.List.Induction
import Mathlib.Data.List.Nodup
import Mathlib.Data.List.Perm.Subperm
import Mathlib.Data.String.Basic

/-! Capturing the state of a script. A captured value shows what a reader of the tables finds under every key, provided
that each table taken for a list has no keys but its positions; and what shows a value is captured of it, whichever
borders the lengths of its tables are. -/

namespace Interleave

namespace Assoc

variable {α β : Type} [LT α] [IsStrictTotalOrder α (· < ·)]

theorem nodup_of_ascending {m : List (α × β)} (h : Ascending m) : (m.map Prod.fst).Nodup := by
  refine List.Pairwise.imp ?_ (ascending_iff_keys.mp h)
  rintro x y hlt rfl
  exact Std.Irrefl.irrefl (r := (· < ·)) x hlt

theorem eq_of_mem_iff {m m' : List (α × β)} (h : Ascending m) (h' : Ascending m') (hmem : ∀ e, e ∈ m ↔ e ∈ m') :
    m = m' := by
  have hperm : m.Perm m' :=
    (List.perm_ext_iff_of_nodup (nodup_of_ascending h).of_map (nodup_of_ascending h').of_map).mpr hmem
  refine hperm.eq_of_pairwise (fun x y _ _ hxy hyx => ?_) h h'
  exact absurd (IsTrans.trans _ _ _ hxy hyx) (Std.Irrefl.irrefl (r := (· < ·)) x.1)

variable [DecidableEq α] [DecidableLT α]

omit [IsStrictTotalOrder α (· < ·)] in
theorem ofList_append (l : List (α × β)) (x : α × β) : ofList (l ++ [x]) = insert x.1 x.2 (ofList l) := by
  simp [ofList]

theorem mem_ofList {l : List (α × β)} (h : (l.map Prod.fst).Nodup) (e : α × β) : e ∈ ofList l ↔ e ∈ l := by
  induction l using List.reverseRecOn with
  | nil => rfl
  | append_singleton l x ih =>
    rw [List.map_append, List.nodup_append] at h
    obtain ⟨hl, -, hfresh⟩ := h
    rw [← get?_eq_some_iff (ascending_ofList _), ofList_append, get?_insert]
    split_ifs with hkey
    · have hnot : e ∉ l := fun hmem => hfresh e.1 (List.mem_map.mpr ⟨e, hmem, rfl⟩) x.1 (by simp) hkey
      simp [hnot, Prod.ext_iff, hkey, eq_comm]
    · have hne : e ≠ x := fun heq => hkey (heq ▸ rfl)
      rw [get?_eq_some_iff (ascending_ofList _), ih hl]
      simp [hne]

end Assoc

theorem mapM_eq_ok_iff {α β ε : Type} {f : α → Except ε β} {l : List α} {bs : List β} :
    l.mapM f = .ok bs ↔ List.Forall₂ (fun a b => f a = .ok b) l bs := by
  induction l generalizing bs with
  | nil => cases bs <;> simp [pure, Except.pure]
  | cons a l ih =>
    rw [List.mapM_cons, List.forall₂_cons_left_iff]
    cases hfirst : f a with
    | error e => simp [bind, Except.bind]
    | ok b =>
      cases hrest : l.mapM f with
      | error e =>
        simp only [← ih, hrest, bind, Except.bind]
        simp
      | ok rest =>
        simp only [← ih, hrest, bind, Except.bind, pure, Except.pure, Except.ok.injEq]
        grind

theorem exists_of_forall₂_left {α β : Type} {R : α → β → Prop} {l : List α} {l' : List β} (h : List.Forall₂ R l l')
    {a : α} (ha : a ∈ l) : ∃ b ∈ l', R a b := by
  induction h with
  | nil => cases ha
  | cons hr _ ih => grind

theorem exists_of_forall₂_right {α β : Type} {R : α → β → Prop} {l : List α} {l' : List β} (h : List.Forall₂ R l l')
    {b : β} (hb : b ∈ l') : ∃ a ∈ l, R a b := by
  simpa using exists_of_forall₂_left h.flip hb

namespace Interpreter

open Text (fromUTF8?_eq_some_iff ofBytes_toUTF8)

theorem captureString_eq {s : ByteArray} {d : Datum} (h : captureString s = (d, true)) :
    ∃ text : String, s = text.toUTF8 ∧ d = .text text := by
  unfold captureString at h
  split at h
  · cases h
    exact ⟨_, fromUTF8?_eq_some_iff.mp ‹_›, rfl⟩
  · cases h

theorem captureString_text (text : String) : captureString text.toUTF8 = (.text text, true) := by
  rw [captureString, fromUTF8?_eq_some_iff.mpr rfl]

theorem toUTF8_injective {t t' : String} (h : t.toUTF8 = t'.toUTF8) : t = t' :=
  Option.some.inj ((fromUTF8?_eq_some_iff.mpr rfl).symm.trans (fromUTF8?_eq_some_iff.mpr h))

theorem text_injective {κ : Type} {t t' : String} (h : (Key.text t : Key κ) = Key.text t') : t = t' :=
  toUTF8_injective (Key.string.inj h)

section StringKeys

variable {κ : Type} {keys : List (Key κ)} {sorted : List ByteArray}

theorem stringKeys?_eq_some (h : stringKeys? keys = some sorted) : (sorted.map Key.string).Perm keys := by
  obtain ⟨names, hnames, hsorted⟩ := Option.bind_eq_some_iff.mp h
  cases hsorted
  have hkeys : names.map Key.string = keys := by
    clear h
    induction keys generalizing names with
    | nil =>
      cases hnames
      rfl
    | cons key keys ih =>
      rw [List.mapM_cons] at hnames
      obtain ⟨first, hfirst, hnames⟩ := Option.bind_eq_some_iff.mp hnames
      obtain ⟨rest, hrest, hnames⟩ := Option.bind_eq_some_iff.mp hnames
      cases hnames
      split at hfirst
      · cases hfirst
        simp [ih rest hrest]
      · cases hfirst
  exact hkeys ▸ (List.mergeSort_perm names _).map _

theorem exists_mapM_eq_some {α β : Type} {f : α → Option β} {l : List α} (h : ∀ a ∈ l, ∃ b, f a = some b) :
    ∃ bs, l.mapM f = some bs := by
  induction l with
  | nil => exact ⟨[], rfl⟩
  | cons a l ih =>
    obtain ⟨⟨b, hb⟩, hrest⟩ := List.forall_mem_cons.mp h
    obtain ⟨bs, hbs⟩ := ih hrest
    exact ⟨b :: bs, by simp [List.mapM_cons, hb, hbs]⟩

theorem exists_stringKeys? (h : ∀ key ∈ keys, ∃ k, key = .string k) : ∃ sorted, stringKeys? keys = some sorted := by
  unfold stringKeys?
  generalize hmapped : (List.mapM _ keys : Option (List ByteArray)) = mapped
  obtain ⟨names, rfl⟩ : ∃ names, mapped = some names := by
    rw [← hmapped]
    refine exists_mapM_eq_some fun key hkey => ?_
    obtain ⟨k, rfl⟩ := h key hkey
    exact ⟨k, rfl⟩
  exact ⟨_, rfl⟩

theorem nodup_names {fields : List (String × Datum)} (hkeys : keys.Nodup) (hperm : (sorted.map Key.string).Perm keys)
    (hnames : List.Forall₂ (fun k f => k = f.1.toUTF8) sorted fields) : (fields.map Prod.fst).Nodup := by
  have hbytes : sorted.Nodup := (hperm.nodup_iff.mpr hkeys).of_map
  have hencoded : sorted = (fields.map Prod.fst).map String.toUTF8 := by
    rwa [← List.forall₂_eq_eq_eq, List.map_map, List.forall₂_map_right_iff]
  exact List.Nodup.of_map _ (hencoded ▸ hbytes)

end StringKeys

variable {σ ρ κ φ : Type} {L : Interpreter σ ρ κ φ} {H : Heap σ ρ} {s : σ} {room : Nat} {v : Value ρ} {d : Datum} {r : ρ}

theorem shows_of_capture_plain (hv : ∀ r, v ≠ .table r) (h : L.capture s room v = .ok (d, true)) :
    L.Shows s room v d := by
  cases v with
  | nil => cases room <;> cases h <;> exact .nil _
  | bool => cases room <;> cases h <;> exact .bool _ _
  | number => cases room <;> cases h <;> exact .number _ _
  | string b =>
    have hstring : captureString b = (d, true) := by cases room <;> exact Except.ok.inj h
    obtain ⟨text, rfl, rfl⟩ := captureString_eq hstring
    exact .text room text
  | table r => exact absurd rfl (hv r)
  | other => cases room <;> cases h

theorem mapM_plain_iff {α β : Type} {f : α → Except StateError (β × Bool)} {l : List α} {build : List β → Datum} :
    (do
      let parts ← l.mapM f
      return (build (parts.map (·.1)), parts.all (·.2)) : Except StateError Captured) = .ok (d, true) ↔
      ∃ parts, build parts = d ∧ List.Forall₂ (fun a b => f a = .ok (b, true)) l parts := by
  constructor
  · intro h
    cases hparts : l.mapM f with
    | error e =>
      rw [hparts] at h
      cases h
    | ok parts =>
      rw [hparts] at h
      obtain ⟨hbuild, hplain⟩ := Prod.mk.inj (Except.ok.inj h)
      have hpaired : parts = (parts.map (·.1)).map (·, true) := by
        rw [List.map_map]
        refine (List.map_id parts).symm.trans (List.map_congr_left fun part hpart => ?_)
        exact Prod.ext rfl (List.all_eq_true.mp hplain part hpart)
      rw [hpaired, mapM_eq_ok_iff, List.forall₂_map_right_iff] at hparts
      exact ⟨_, hbuild, hparts⟩
  · rintro ⟨parts, rfl, hparts⟩
    have hmapped : l.mapM f = .ok (parts.map (·, true)) :=
      mapM_eq_ok_iff.mpr (List.forall₂_map_right_iff.mpr hparts)
    rw [hmapped]
    simp [bind, Except.bind, pure, Except.pure, Function.comp_def]

theorem capture_list (hlist : L.TakenForList s r) :
    L.capture s (room + 1) (.table r) = .ok (d, true) ↔
      ∃ items, d = .list items ∧ items.length = L.length r s ∧ ∀ i (hi : i < items.length),
        L.capture s room (L.get r (.position (i + 1)) s) = .ok (items[i], true) := by
  rw [TakenForList] at hlist
  simp only [capture, if_pos hlist]
  rw [mapM_plain_iff]
  refine exists_congr fun items => and_congr eq_comm ?_
  rw [List.forall₂_iff_get]
  simp only [List.length_range, List.get_eq_getElem, List.getElem_range]
  constructor
  · rintro ⟨hlength, hitems⟩
    exact ⟨hlength.symm, fun i hi => hitems i (hlength ▸ hi) hi⟩
  · rintro ⟨hlength, hitems⟩
    exact ⟨hlength.symm, fun i _ hi => hitems i hi⟩

theorem capture_record (hrecord : ¬ L.TakenForList s r) :
    L.capture s (room + 1) (.table r) = .ok (d, true) ↔
      ∃ sorted, stringKeys? (L.keys r s) = some sorted ∧ ∃ fields, Datum.ofFields fields = d ∧
        List.Forall₂ (fun k f => k = f.1.toUTF8 ∧ L.capture s room (L.get r (.string k) s) = .ok (f.2, true))
          sorted fields := by
  rw [TakenForList] at hrecord
  simp only [capture, if_neg hrecord]
  split
  · rename_i hnone
    simp only [hnone, reduceCtorEq, false_and, exists_false]
  · rename_i sorted hsorted
    rw [mapM_plain_iff]
    simp only [hsorted, Option.some.injEq, exists_eq_left']
    refine exists_congr fun fields => and_congr_right fun _ => iff_of_eq (congrArg (List.Forall₂ · sorted fields) ?_)
    funext k f
    refine propext ?_
    cases hcapture : L.capture s room (L.get r (.string k) s) with
    | error e => simp
    | ok part =>
      obtain ⟨inner, plain⟩ := part
      simp only [Except.ok.injEq, Prod.mk.injEq, Bool.and_eq_true, Option.isSome_iff_exists, fromUTF8?_eq_some_iff]
      constructor
      · rintro ⟨rfl, rfl, text, rfl⟩
        exact ⟨by rw [ofBytes_toUTF8], rfl, rfl⟩
      · rintro ⟨rfl, rfl, rfl⟩
        exact ⟨by rw [ofBytes_toUTF8], rfl, f.1, rfl⟩

def positions (n : Nat) : List (Key κ) := (List.range n).map fun i => .position (i + 1)

theorem mem_positions {n : Nat} {key : Key κ} : key ∈ positions n ↔ ∃ i < n, key = .position (i + 1) := by
  simp [positions, eq_comm]

theorem nodup_positions (n : Nat) : (positions n : List (Key κ)).Nodup :=
  List.nodup_range.map fun _ _ h => Nat.succ.inj (Key.position.inj h)

@[simp] theorem length_positions (n : Nat) : (positions n : List (Key κ)).length = n := by simp [positions]

theorem Lawful.keys_of_sequence (hL : L.Lawful H) (hs : H.valid s) (hlist : L.TakenForList s r)
    (hsequence : L.IsSequence s r) (key : Key κ) :
    L.get r key s ≠ .nil ↔ ∃ i < L.length r s, key = .position (i + 1) := by
  -- A table that is taken for a list and has no keys but positions has a value at each of them: otherwise it had too
  -- few keys.
  have hsubset : L.keys r s ⊆ positions (L.length r s) := by
    intro key hkey
    obtain ⟨n, rfl, hpositive, hle⟩ := hsequence key ((hL.mem_keys hs r key).mp hkey)
    exact mem_positions.mpr ⟨n - 1, by omega, congrArg Key.position (by omega)⟩
  have hperm : (L.keys r s).Perm (positions (L.length r s)) := by
    refine ((hL.keys_nodup hs r).subperm hsubset).perm_of_length_le ?_
    rw [length_positions, hlist.2]
  rw [← hL.mem_keys hs, hperm.mem_iff, mem_positions]

theorem Lawful.takenForList (hL : L.Lawful H) (hs : H.valid s) {n : Nat} (hn : 0 < n)
    (hkeys : ∀ key, L.get r key s ≠ .nil ↔ ∃ i < n, key = .position (i + 1)) :
    L.TakenForList s r ∧ L.length r s = n := by
  -- The only border of a sequence is the number of its items.
  have hperm : (L.keys r s).Perm (positions n) := by
    refine (List.perm_ext_iff_of_nodup (hL.keys_nodup hs r) (nodup_positions n)).mpr fun key => ?_
    rw [hL.mem_keys hs, hkeys, mem_positions]
  have hcount : (L.keys r s).length = n := by rw [hperm.length_eq, length_positions]
  have hlength : L.length r s = n := by
    obtain ⟨hlast, hnext⟩ := hL.border hs r
    have hge : ¬ L.length r s < n := fun hlt => (hkeys _).mpr ⟨_, hlt, rfl⟩ hnext
    rcases hlast with hzero | hlast
    · omega
    · obtain ⟨i, hi, heq⟩ := (hkeys _).mp hlast
      have hi' : L.length r s = i + 1 := Key.position.inj heq
      omega
  exact ⟨⟨hcount ▸ hn, hcount.trans hlength.symm⟩, hlength⟩

theorem Lawful.not_takenForList (hL : L.Lawful H) (hs : H.valid s) (hkeys : ∀ n, L.get r (.position n) s = .nil) :
    ¬ L.TakenForList s r := by
  -- A table without a value at a position has the length zero.
  rintro ⟨hpositive, hcount⟩
  rcases (hL.border hs r).1 with hzero | hlast
  · omega
  · exact hlast (hkeys _)

theorem Lawful.shows_record (hL : L.Lawful H) (hs : H.valid s) {sorted : List ByteArray}
    {fields : List (String × Datum)} (hsorted : stringKeys? (L.keys r s) = some sorted)
    (hfields : List.Forall₂ (fun k f => k = f.1.toUTF8 ∧ L.capture s room (L.get r (.string k) s) = .ok (f.2, true))
      sorted fields)
    (hshows : ∀ key d, L.capture s room (L.get r key s) = .ok (d, true) → L.Shows s room (L.get r key s) d) :
    L.Shows s (room + 1) (.table r) (Datum.ofFields fields) := by
  have hperm := stringKeys?_eq_some hsorted
  have hnodup := nodup_names (hL.keys_nodup hs r) hperm (hfields.imp fun _ _ h => h.1)
  refine .record (Assoc.ascending_ofList fields) ?_ ?_
  · intro key
    simp only [Assoc.mem_ofList hnodup]
    rw [← hL.mem_keys hs, ← hperm.mem_iff, List.mem_map]
    constructor
    · rintro ⟨k, hk, rfl⟩
      obtain ⟨f, hf, rfl, -⟩ := exists_of_forall₂_left hfields hk
      exact ⟨f, hf, rfl⟩
    · rintro ⟨f, hf, rfl⟩
      obtain ⟨k, hk, rfl, -⟩ := exists_of_forall₂_right hfields hf
      exact ⟨_, hk, rfl⟩
  · intro f hf
    obtain ⟨k, -, rfl, hcapture⟩ := exists_of_forall₂_right hfields ((Assoc.mem_ofList hnodup f).mp hf)
    exact hshows _ _ hcapture

theorem Lawful.shows_of_capture (hL : L.Lawful H) (hs : H.valid s) (hregular : L.Regular s v)
    (h : L.capture s room v = .ok (d, true)) : L.Shows s room v d := by
  induction room generalizing v d with
  | zero =>
    refine shows_of_capture_plain ?_ h
    rintro r rfl
    cases h
  | succ room ih =>
    by_cases hplain : ∀ r, v ≠ .table r
    · exact shows_of_capture_plain hplain h
    · push Not at hplain
      obtain ⟨r, rfl⟩ := hplain
      by_cases hlist : L.TakenForList s r
      · have hkeys := hL.keys_of_sequence hs hlist (hregular r (.self r) hlist)
        obtain ⟨items, rfl, hlength, hitems⟩ := (capture_list hlist).mp h
        refine .list ?_ (hlength ▸ hkeys) fun i hi => ih (hregular.held _) (hitems i hi)
        rintro rfl
        obtain ⟨hpositive, hcount⟩ := hlist
        rw [hcount, ← hlength] at hpositive
        exact absurd hpositive (by simp)
      · obtain ⟨sorted, hsorted, fields, rfl, hfields⟩ := (capture_record hlist).mp h
        exact hL.shows_record hs hsorted hfields fun key d hd => ih (hregular.held key) hd

theorem exists_captured_fields {sorted : List ByteArray} {fields : List (String × Datum)} (hsorted : sorted.Nodup)
    (hascending : Assoc.Ascending fields) (hnames : ∀ k, k ∈ sorted ↔ ∃ f ∈ fields, k = f.1.toUTF8) :
    ∃ found : List (String × Datum), Datum.ofFields found = .record fields ∧
      List.Forall₂ (fun k f => k = f.1.toUTF8 ∧ f ∈ fields) sorted found := by
  let found : ByteArray → String × Datum := fun k =>
    (Text.ofBytes k, (Assoc.get? (Text.ofBytes k) fields).getD .null)
  have hfound : ∀ f ∈ fields, found f.1.toUTF8 = f := by
    intro f hf
    have hlookup : Assoc.get? f.1 fields = some f.2 := (Assoc.get?_eq_some_iff hascending).mpr hf
    simp only [found, ofBytes_toUTF8, hlookup, Option.getD_some]
  have hpaired : List.Forall₂ (fun k f => k = f.1.toUTF8 ∧ f ∈ fields) sorted (sorted.map found) := by
    rw [List.forall₂_map_right_iff, List.forall₂_same]
    intro k hk
    obtain ⟨f, hf, rfl⟩ := (hnames k).mp hk
    rw [hfound f hf]
    exact ⟨rfl, hf⟩
  refine ⟨sorted.map found, congrArg Datum.record ?_, hpaired⟩
  have hkeys : (sorted.map (Key.string : ByteArray → Key Unit)).Nodup := hsorted.map fun _ _ => Key.string.inj
  have hnodup := nodup_names hkeys (.refl _) (hpaired.imp fun _ _ h => h.1)
  refine Assoc.eq_of_mem_iff (Assoc.ascending_ofList _) hascending fun f => ?_
  rw [Assoc.mem_ofList hnodup, List.mem_map]
  constructor
  · rintro ⟨k, hk, rfl⟩
    obtain ⟨f, hf, rfl⟩ := (hnames k).mp hk
    rwa [hfound f hf]
  · intro hf
    exact ⟨f.1.toUTF8, (hnames _).mpr ⟨f, hf, rfl⟩, hfound f hf⟩

theorem Lawful.capture_of_shows (hL : L.Lawful H) (hs : H.valid s) (h : L.Shows s room v d) :
    L.capture s room v = .ok (d, true) := by
  induction h with
  | nil room => cases room <;> rfl
  | bool room b => cases room <;> rfl
  | number room x => cases room <;> rfl
  | text room t => cases room <;> exact congrArg Except.ok (captureString_text t)
  | list hempty hkeys _ ih =>
    obtain ⟨hlist, hlength⟩ := hL.takenForList hs (List.length_pos_iff.mpr hempty) hkeys
    exact (capture_list hlist).mpr ⟨_, rfl, hlength.symm, ih⟩
  | @record room r fields hascending hkeys _ ih =>
    have hrecord : ¬ L.TakenForList s r := by
      refine hL.not_takenForList hs fun n => ?_
      by_contra hget
      obtain ⟨f, -, hf⟩ := (hkeys _).mp hget
      cases hf
    have hmem : ∀ key, key ∈ L.keys r s ↔ ∃ f ∈ fields, key = .text f.1 := fun key => by
      rw [hL.mem_keys hs, hkeys]
    obtain ⟨sorted, hsorted⟩ : ∃ sorted, stringKeys? (L.keys r s) = some sorted := by
      refine exists_stringKeys? fun key hkey => ?_
      obtain ⟨f, -, rfl⟩ := (hmem key).mp hkey
      exact ⟨_, rfl⟩
    have hperm := stringKeys?_eq_some hsorted
    obtain ⟨found, hfound, hpaired⟩ := exists_captured_fields
      ((hperm.nodup_iff.mpr (hL.keys_nodup hs r)).of_map) hascending fun k => by
        rw [← List.mem_map_of_injective (fun _ _ => Key.string.inj), hperm.mem_iff, hmem]
        simp [Key.text]
    refine (capture_record hrecord).mpr ⟨sorted, hsorted, found, hfound, hpaired.imp ?_⟩
    rintro k f ⟨rfl, hf⟩
    exact ⟨rfl, ih f hf⟩

end Interpreter

end Interleave
