import Interleave.Proofs.StateCapture

/-! Installing a captured state. It gives a value of the same structure, in new tables, of which the same value is
captured again. -/

namespace Interleave.Interpreter

variable {σ ρ κ φ : Type} {L : Interpreter σ ρ κ φ} {H : Heap σ ρ} {s s' s'' : σ} {room : Nat} {v : Value ρ} {d : Datum}
  {r : ρ} {entries : List (Key κ × Datum)}

theorem push_ne_other (L : Interpreter σ ρ κ φ) (d : Datum) (s : σ) (typeName : String) : (L.push d s).1 ≠ .other typeName := by
  cases d <;> simp [push, Value.text]

inductive Pushes (L : Interpreter σ ρ κ φ) (r : ρ) : List (Key κ × Datum) → σ → σ → Prop
  | nil (s : σ) : Pushes L r [] s s
  | cons {key : Key κ} {d : Datum} {entries : List (Key κ × Datum)} {s s' : σ}
      (h : Pushes L r entries (L.put r key (L.push d s).1 (L.push d s).2) s') : Pushes L r ((key, d) :: entries) s s'

def itemEntries (n : Nat) (items : List Datum) : List (Key κ × Datum) := items.mapIdx fun i x => (.position (i + n), x)

def fieldEntries (fields : List (String × Datum)) : List (Key κ × Datum) := fields.map fun f => (.text f.1, f.2)

theorem itemEntries_cons (n : Nat) (x : Datum) (xs : List Datum) :
    (itemEntries n (x :: xs) : List (Key κ × Datum)) = (.position n, x) :: itemEntries (n + 1) xs := by
  simp only [itemEntries, List.mapIdx_cons, Nat.zero_add]
  congr 2
  funext i y
  rw [Nat.add_right_comm, Nat.add_assoc]

theorem mem_itemEntries {items : List Datum} {e : Key κ × Datum} :
    e ∈ itemEntries 1 items ↔ ∃ i, ∃ hi : i < items.length, e = (.position (i + 1), items[i]) := by
  simp [itemEntries, List.mem_mapIdx, eq_comm]

theorem keys_itemEntries (items : List Datum) :
    (itemEntries 1 items).map Prod.fst = (positions items.length : List (Key κ)) := by
  refine List.ext_getElem (by simp [itemEntries]) fun i _ _ => ?_
  simp [itemEntries, positions]

theorem pushes_items (r : ρ) (n : Nat) (items : List Datum) (s : σ) :
    L.Pushes r (itemEntries n items) s (L.pushItems r n items s) := by
  induction items generalizing n s with
  | nil => exact .nil s
  | cons x xs ih =>
    rw [itemEntries_cons, pushItems]
    exact .cons (ih (n + 1) _)

theorem pushes_fields (r : ρ) (fields : List (String × Datum)) (s : σ) :
    L.Pushes r (fieldEntries fields) s (L.pushFields r fields s) := by
  induction fields generalizing s with
  | nil => exact .nil s
  | cons f fields ih => exact .cons (ih _)

def PushKeeps (L : Interpreter σ ρ κ φ) (H : Heap σ ρ) (d : Datum) : Prop :=
  ∀ s, H.valid s → L.KeepsBut H (fun _ => False) s (L.push d s).2

theorem Pushes.keepsBut (hL : L.Lawful H) (h : L.Pushes r entries s s') (hs : H.valid s) (hr : H.made s r)
    (hkeys : ∀ e ∈ entries, ∀ k, e.1 ≠ .other k) (hpush : ∀ e ∈ entries, L.PushKeeps H e.2) :
    L.KeepsBut H (· = r) s s' := by
  induction h with
  | nil s => exact .refl hs
  | @cons key d entries s s' _ ih =>
    obtain ⟨hkey, hkeys⟩ := List.forall_mem_cons.mp hkeys
    obtain ⟨hfirst, hpush⟩ := List.forall_mem_cons.mp hpush
    have hpushed := hfirst s hs
    have hput := hL.put hpushed.valid (hpushed.made r hr) hkey (L.push_ne_other d s)
    have hrest := ih hput.valid (hput.made r (hpushed.made r hr)) hkeys hpush
    exact ((hpushed.mono fun _ _ h => h.elim).trans hput).trans hrest

theorem Lawful.keeps_table (hL : L.Lawful H) (hs : H.valid s) {n : Nat}
    (h : L.Pushes (L.create n s).1 entries (L.create n s).2 s') (hkeys : ∀ e ∈ entries, ∀ k, e.1 ≠ .other k)
    (hpush : ∀ e ∈ entries, L.PushKeeps H e.2) : L.KeepsBut H (fun _ => False) s s' := by
  obtain ⟨hnew, hmade, -⟩ := hL.create_new hs n
  have hcreate := hL.create hs n
  have hpushed := h.keepsBut hL hcreate.valid hmade hkeys hpush
  refine ((hcreate.mono fun _ _ h => h.elim).trans hpushed).mono ?_
  rintro r hr rfl
  exact hnew hr

theorem Lawful.pushKeeps (hL : L.Lawful H) (d : Datum) : L.PushKeeps H d := by
  intro s hs
  cases d with
  | null => exact .refl hs
  | bool => exact .refl hs
  | number => exact .refl hs
  | text => exact .refl hs
  | list items =>
    have hitems : ∀ x ∈ items, L.PushKeeps H x := fun x _ => hL.pushKeeps x
    refine hL.keeps_table hs (pushes_items _ 1 items _) ?_ ?_ <;> intro e he <;>
      obtain ⟨i, hi, rfl⟩ := mem_itemEntries.mp he
    · simp
    · exact hitems _ (List.getElem_mem hi)
  | record fields =>
    have hfields : ∀ f ∈ fields, L.PushKeeps H f.2 := fun f hf => by
      have : sizeOf f.2 < 1 + sizeOf fields := by
        have hmem := List.sizeOf_lt_of_mem hf
        have hfield : sizeOf f = 1 + sizeOf f.1 + sizeOf f.2 := by cases f; rfl
        omega
      exact hL.pushKeeps f.2
    refine hL.keeps_table hs (pushes_fields _ fields _) ?_ ?_ <;> intro e he <;>
      obtain ⟨f, hf, rfl⟩ := List.mem_map.mp he
    · simp [Key.text]
    · exact hfields f hf
termination_by sizeOf d

def Continues (L : Interpreter σ ρ κ φ) (H : Heap σ ρ) (s s' s'' : σ) : Prop :=
  ∀ r, ¬ H.made s r → H.made s' r → ∀ key, L.get r key s'' = L.get r key s'

/-- A message value can be installed: the tables that are made for it show it, whatever happens to the others. -/
def Installs (L : Interpreter σ ρ κ φ) (H : Heap σ ρ) (room : Nat) (d : Datum) : Prop :=
  ∀ s s'', H.valid s → L.Continues H s (L.push d s).2 s'' → L.Shows s'' room (L.push d s).1 d

structure Proper (entries : List (Key κ × Datum)) : Prop where
  nodup : (entries.map Prod.fst).Nodup
  plain : ∀ e ∈ entries, ∀ k, e.1 ≠ .other k
  exact : ∀ e ∈ entries, ∀ n, e.1 = .position n → IsPosition n

theorem Proper.of_cons {e : Key κ × Datum} (h : Proper (e :: entries)) : Proper entries where
  nodup := (List.nodup_cons.mp h.nodup).2
  plain e he := h.plain e (List.mem_cons_of_mem _ he)
  exact e he := h.exact e (List.mem_cons_of_mem _ he)

theorem Pushes.shows (hL : L.Lawful H) (h : L.Pushes r entries s s') (hs : H.valid s) (hr : H.made s r)
    (hproper : Proper entries) (hinstalls : ∀ e ∈ entries, L.Installs H room e.2) (hcontinues : L.Continues H s s' s'') :
    (∀ e ∈ entries, L.Shows s'' room (L.get r e.1 s') e.2) ∧
      ∀ key, key ∉ entries.map Prod.fst → L.get r key s' = L.get r key s := by
  induction h with
  | nil s => exact ⟨List.forall_mem_nil _, fun _ _ => rfl⟩
  | @cons key d entries s s' h ih =>
    obtain ⟨hfirst, hinstalls⟩ := List.forall_mem_cons.mp hinstalls
    have hpushed := hL.pushKeeps d s hs
    have hr' := hpushed.made r hr
    have hput := hL.put hpushed.valid hr' (hproper.plain _ List.mem_cons_self) (L.push_ne_other d s)
    obtain ⟨hget, hother⟩ := hL.get_put hpushed.valid hr' (hproper.plain _ List.mem_cons_self)
      (hproper.exact _ List.mem_cons_self) (L.push_ne_other d s)
    have hr'' := hput.made r hr'
    have hrest := h.keepsBut hL hput.valid hr'' hproper.of_cons.plain fun e _ => hL.pushKeeps e.2
    obtain ⟨hshows, hkept⟩ := ih hput.valid hr'' hproper.of_cons hinstalls fun t hnew hmade =>
      hcontinues t (fun hold => hnew (hput.made t (hpushed.made t hold))) hmade
    have hfresh := (List.nodup_cons.mp hproper.nodup).1
    refine ⟨List.forall_mem_cons.mpr ⟨?_, hshows⟩, fun key' hkey' => ?_⟩
    · rw [hkept key hfresh, hget]
      -- The tables made for the first entry are not touched by the later pushes.
      refine hfirst s s'' hs fun t hnew hmade key' => ?_
      have hne : ¬ t = r := fun heq => hnew (heq ▸ hr)
      rw [hcontinues t hnew (hrest.made t (hput.made t hmade)) key', hrest.get t (hput.made t hmade) hne,
        hput.get t hmade hne]
    · obtain ⟨hne, hnotin⟩ := not_or.mp (mt List.mem_cons.mpr hkey')
      rw [hkept key' hnotin, hother key' hne, hpushed.get r hr id]

theorem Lawful.shows_table (hL : L.Lawful H) (hs : H.valid s) {n : Nat}
    (h : L.Pushes (L.create n s).1 entries (L.create n s).2 s') (hproper : Proper entries)
    (hinstalls : ∀ e ∈ entries, L.Installs H room e.2) (hnull : ∀ e ∈ entries, e.2 ≠ .null)
    (hcontinues : L.Continues H s s' s'') :
    (∀ e ∈ entries, L.Shows s'' room (L.get (L.create n s).1 e.1 s'') e.2) ∧
      ∀ key, L.get (L.create n s).1 key s'' ≠ .nil ↔ ∃ e ∈ entries, key = e.1 := by
  obtain ⟨hnew, hmade, hempty⟩ := hL.create_new hs n
  have hcreate := hL.create hs n
  have hkeeps := h.keepsBut hL hcreate.valid hmade hproper.plain fun e _ => hL.pushKeeps e.2
  have hleft := hcontinues _ hnew (hkeeps.made _ hmade)
  obtain ⟨hshows, hkept⟩ := h.shows hL hcreate.valid hmade hproper hinstalls fun t hnew' =>
    hcontinues t (mt (hcreate.made t) hnew')
  simp only [hleft]
  refine ⟨hshows, fun key => ⟨fun hget => ?_, ?_⟩⟩
  · by_contra hkey
    refine hget (((hkept key fun hmem => ?_)).trans (hempty key))
    obtain ⟨e, he, rfl⟩ := List.mem_map.mp hmem
    exact hkey ⟨e, he, rfl⟩
  · rintro ⟨e, he, rfl⟩
    exact mt (hshows e he).nil_iff.mp (hnull e he)

theorem Lawful.installs (hL : L.Lawful H) (hs : H.valid s) (h : L.Shows s room v d) : L.Installs H room d := by
  induction h with
  | nil room => exact fun _ _ _ _ => .nil room
  | bool room b => exact fun _ _ _ _ => .bool room b
  | number room x => exact fun _ _ _ _ => .number room x
  | text room t => exact fun _ _ _ _ => .text room t
  | @list room r items hempty hkeys hitems ih =>
    intro s s'' hs' hcontinues
    -- No item is null, so each of them makes its position a key.
    have hfilled : ∀ i < items.length, L.get r (.position (i + 1)) _ ≠ .nil := fun i hi => (hkeys _).mpr ⟨i, hi, rfl⟩
    have hproper : Proper (itemEntries 1 items : List (Key κ × Datum)) := by
      refine ⟨keys_itemEntries items ▸ nodup_positions _, ?_, ?_⟩ <;> intro e he <;>
        obtain ⟨i, hi, rfl⟩ := mem_itemEntries.mp he
      · simp
      · rintro _ ⟨⟩
        exact hL.isPosition hs (hfilled i hi)
    have hentries : ∀ e ∈ (itemEntries 1 items : List (Key κ × Datum)), L.Installs H room e.2 ∧ e.2 ≠ .null := by
      intro e he
      obtain ⟨i, hi, rfl⟩ := mem_itemEntries.mp he
      exact ⟨ih i hi, mt (hitems i hi).nil_iff.mpr (hfilled i hi)⟩
    obtain ⟨hshows, hkeys'⟩ := hL.shows_table hs' (pushes_items _ 1 items _) hproper (fun e he => (hentries e he).1)
      (fun e he => (hentries e he).2) hcontinues
    refine .list hempty (fun key => ?_) fun i hi => hshows _ (mem_itemEntries.mpr ⟨i, hi, rfl⟩)
    rw [hkeys']
    simp only [mem_itemEntries]
    grind
  | @record room r fields hascending hkeys hfields ih =>
    intro s s'' hs' hcontinues
    -- Names ascend, so no field is put twice.
    have hproper : Proper (fieldEntries fields : List (Key κ × Datum)) := by
      refine ⟨?_, ?_, ?_⟩
      · have hnames := Assoc.nodup_of_ascending hascending
        have hkeys : (fieldEntries fields : List (Key κ × Datum)).map Prod.fst = (fields.map Prod.fst).map Key.text := by
          simp [fieldEntries]
        rw [hkeys]
        exact hnames.map fun _ _ => text_injective
      all_goals
        intro e he
        obtain ⟨f, hf, rfl⟩ := List.mem_map.mp he
        simp [Key.text]
    have hentries : ∀ e ∈ (fieldEntries fields : List (Key κ × Datum)), L.Installs H room e.2 ∧ e.2 ≠ .null := by
      intro e he
      obtain ⟨f, hf, rfl⟩ := List.mem_map.mp he
      exact ⟨ih f hf, mt (hfields f hf).nil_iff.mpr ((hkeys _).mpr ⟨f, hf, rfl⟩)⟩
    obtain ⟨hshows, hkeys'⟩ := hL.shows_table hs' (pushes_fields _ fields _) hproper (fun e he => (hentries e he).1)
      (fun e he => (hentries e he).2) hcontinues
    refine .record hascending (fun key => ?_) fun f hf => hshows _ (List.mem_map.mpr ⟨f, hf, rfl⟩)
    rw [hkeys']
    simp only [fieldEntries, List.mem_map]
    grind

theorem Lawful.captureState_iff (hL : L.Lawful H) (hs : H.valid s) (hregular : L.Regular s (L.state s)) :
    L.captureState s = .ok (d, true) ↔ L.Shown s d :=
  ⟨hL.shows_of_capture hs hregular, hL.capture_of_shows hs⟩

theorem Lawful.valid_installState (hL : L.Lawful H) (hs : H.valid s) (d : Datum) : H.valid (L.installState d s) :=
  (hL.setState (hL.pushKeeps d s hs).valid (L.push_ne_other d s)).1.valid

theorem Lawful.shown_installState (hL : L.Lawful H) (hs : H.valid s) (hs' : H.valid s')
    (h : L.Shows s maxNesting v d) : L.Shown (L.installState d s') d := by
  have hpushed := hL.pushKeeps d s' hs'
  obtain ⟨hset, hstate⟩ := hL.setState hpushed.valid (L.push_ne_other d s')
  have hglobals := hL.made_globals hs'
  rw [Shown, installState, hstate]
  refine hL.installs hs h s' _ hs' fun r hnew hmade => hset.get r hmade ?_
  rintro rfl
  exact hnew (hpushed.globals ▸ hglobals)

end Interleave.Interpreter
