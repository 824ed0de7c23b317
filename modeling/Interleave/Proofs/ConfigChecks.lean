import Interleave.Config
import Interleave.Exploration.Plan
import Mathlib.Control.Monad.Basic
import Mathlib.Tactic.ByContra
import Mathlib.Tactic.SplitIfs

/-! The rules for combining settings are checked when a configuration is validated and again when an exploration is
planned. Both checks come to the same verdict. A conflict between them can only come from a reduction that was asked
for, in the environment or by a flag, since otherwise it gives way to the visited states. -/

namespace Interleave

variable {α : Type}

namespace Argument

def Writes (name : String) (value : Option String) (arg : String) : Prop :=
  ∃ dashes, (dashes = "-" ∨ dashes = "--") ∧ arg = dashes ++ name ++ value.elim "" ("=" ++ ·)

theorem ofName_eq_flag {chars : List Char} {name : String} {value : Option String} (h : ofName chars = .flag name value) :
    chars = name.toList ++ (value.elim "" ("=" ++ ·)).toList := by
  cases chars with
  | nil => cases h
  | cons c cs =>
    have hparts : cs.takeWhile (· != '=') ++ cs.dropWhile (· != '=') = cs := List.takeWhile_append_dropWhile
    rw [ofName] at h
    split_ifs at h
    cases hdrop : cs.dropWhile (· != '=') with
    | nil =>
      simp only [hdrop] at h
      obtain ⟨rfl, rfl⟩ := Argument.flag.inj h
      rw [hdrop, List.append_nil] at hparts
      simp [hparts]
    | cons sign text =>
      -- What follows the name starts with the sign that ended it.
      have hsign : sign = '=' := by simpa [hdrop] using List.head?_dropWhile_not (· != '=') cs
      simp only [hdrop] at h
      obtain ⟨rfl, rfl⟩ := Argument.flag.inj h
      rw [hdrop, hsign] at hparts
      simp [hparts]

theorem writes_of_ofText {arg name : String} {value : Option String} (h : ofText arg = .flag name value) :
    Writes name value arg := by
  have harg : String.ofList arg.toList = arg := String.ofList_toList
  rw [ofText, ofChars.eq_def] at h
  split at h
  · cases h
  · cases h
  · rename_i chars hchars
    refine ⟨"--", .inr rfl, ?_⟩
    rw [← String.toList_inj, hchars, ofName_eq_flag h]
    simp
  · rename_i chars _ _ hchars
    refine ⟨"-", .inl rfl, ?_⟩
    rw [← String.toList_inj, hchars, ofName_eq_flag h]
    simp
  · cases h

end Argument

namespace Flags

/-- The arguments give values to flags, in the order of `pairs`, and `rest` is left over. A flag has its value after an
equals sign or in the next argument, unless it is a switch, which is turned on by its name. Flags end at the first
argument that is none. -/
inductive Spells (ps : List (Parameter α)) : List String → List (String × String) → List String → Prop
  | nil : Spells ps [] [] []
  | operand {arg : String} {rest : List String} (harg : Argument.ofText arg = .operand) :
      Spells ps (arg :: rest) [] (arg :: rest)
  | terminator {arg : String} {rest : List String} (harg : Argument.ofText arg = .terminator) :
      Spells ps (arg :: rest) [] rest
  | joined {p : Parameter α} {arg value : String} {args rest : List String} {pairs : List (String × String)}
      (hp : p ∈ ps) (harg : Argument.Writes p.flag (some value) arg) (hrest : Spells ps args pairs rest) :
      Spells ps (arg :: args) ((p.flag, value) :: pairs) rest
  | switched {p : Parameter α} {arg value : String} {args rest : List String} {pairs : List (String × String)}
      (hp : p ∈ ps) (himplied : impliedValue p = some value) (harg : Argument.Writes p.flag none arg)
      (hrest : Spells ps args pairs rest) : Spells ps (arg :: args) ((p.flag, value) :: pairs) rest
  | apart {p : Parameter α} {arg value : String} {args rest : List String} {pairs : List (String × String)}
      (hp : p ∈ ps) (himplied : impliedValue p = none) (harg : Argument.Writes p.flag none arg)
      (hrest : Spells ps args pairs rest) : Spells ps (arg :: value :: args) ((p.flag, value) :: pairs) rest

theorem find?_flag {ps : List (Parameter α)} {name : String} {p : Parameter α}
    (h : ps.find? (·.flag = name) = some p) : p ∈ ps ∧ p.flag = name :=
  ⟨List.mem_of_find?_eq_some h, by simpa using List.find?_some h⟩

theorem read_spells {ps : List (Parameter α)} {args : List String} {c : α} {given : List String}
    (h : (read ps args c given).error = none) :
    ∃ pairs, Spells ps args pairs (read ps args c given).rest ∧
      (read ps args c given).given = (pairs.map Prod.fst).reverse ++ given := by
  fun_induction read ps args c given with
  | case1 c given => exact ⟨[], .nil, rfl⟩
  | case2 arg rest c given harg => exact ⟨[], .operand harg, rfl⟩
  | case3 arg rest c given harg => exact ⟨[], .terminator harg, rfl⟩
  | case6 arg c given name value harg p hp text args hvalue c' hassign ih =>
    obtain ⟨pairs, hspells, hgiven⟩ := ih h
    obtain ⟨hmem, rfl⟩ := find?_flag hp
    have hwrites := Argument.writes_of_ofText harg
    refine ⟨(p.flag, text) :: pairs, ?_, by simp [hgiven]⟩
    cases value with
    | some value =>
      obtain rfl : value = text := Option.some.inj hvalue
      exact .joined hmem hwrites hspells
    | none => exact .switched hmem hvalue hwrites hspells
  | case9 arg c given name value harg p hp text args hvalue c' hassign ih =>
    obtain ⟨pairs, hspells, hgiven⟩ := ih h
    obtain ⟨hmem, rfl⟩ := find?_flag hp
    obtain ⟨rfl, himplied⟩ := Option.or_eq_none_iff.mp hvalue
    have hwrites := Argument.writes_of_ofText harg
    exact ⟨(p.flag, text) :: pairs, .apart hmem himplied hwrites hspells, by simp [hgiven]⟩
  | case4 | case5 | case7 | case8 | case10 => cases h

end Flags

theorem ConfigParse.run_eq_ok {command : String} {ps : List (Parameter α)} {defaults c : α}
    {complete : List String → α → α} {read : EnvironmentReader α} {env : Environment} {args : List String}
    (h : (run command ps defaults complete read env args).outcome = .ok c) :
    ∃ base, (Flags.read ps args base []).error = none ∧
      c = complete (Flags.read ps args base []).given (Flags.read ps args base []).config := by
  rw [run] at h
  split at h
  · cases h
  · rename_i base _
    dsimp only at h
    split at h
    · rename_i herror
      exact ⟨base, herror, (Except.ok.inj h).symm⟩
    · cases h

namespace CheckConfig

def plan (c : CheckConfig) (s : Strategy) (r : Reduction) : Plan where
  strategy := s
  options :=
    { maxDepth := c.maxDepth, reduction := r, maxVisited := c.maxVisited.toNat, checkpoint := c.checkpoint.toNat
      graph := false }

structure Known (c : CheckConfig) (s : Strategy) (r : Reduction) : Prop where
  source : (c.model ≠ "" ∧ c.remote = "") ∨ (c.model = "" ∧ c.remote ≠ "")
  strategy : Strategy.ofName? c.strategy = some s
  reduction : Reduction.ofName? c.reduction = some r

theorem Known.validate_eq {c : CheckConfig} {s : Strategy} {r : Reduction} (h : c.Known s r) :
    c.validate =
      if c.maxVisited < 0 then .error (.negativeVisited c.maxVisited)
      else if c.checkpoint < 0 then .error (.negativeCheckpoint c.checkpoint)
      else if r = .dpor ∧ 0 < c.maxVisited then .error .conflict
      else .ok () := by
  have hsource : ¬ (c.model = "" ↔ c.remote = "") := by
    rcases h.source with ⟨hmodel, hremote⟩ | ⟨hmodel, hremote⟩ <;> simp [hmodel, hremote]
  simp only [validate, if_neg hsource, h.strategy, h.reduction]

theorem Known.make_eq {c : CheckConfig} {s : Strategy} {r : Reduction} (h : c.Known s r) :
    Plan.make s.code c.settings =
      if c.maxVisited < 0 then .error (.option (.negativeVisited c.maxVisited))
      else if c.checkpoint < 0 then .error (.option (.negativeCheckpoint c.checkpoint))
      else if r = .dpor ∧ 0 < c.maxVisited then .error (.option .conflict)
      else .ok (c.plan s r) := by
  have hstrategy : Strategy.ofCode? s.code = some s := by cases s <;> rfl
  have hreduction : Reduction.ofCode? r.code = some r := by cases r <;> rfl
  simp only [Plan.make, hstrategy, Options.ofSettings, settings, h.reduction, Option.getD_some, List.foldlM_cons,
    List.foldlM_nil, Options.apply, hreduction, Except.bind, bind, pure, Except.pure]
  by_cases hvisited : c.maxVisited < 0
  · simp only [if_pos hvisited]
  · by_cases hcheckpoint : c.checkpoint < 0
    · simp only [if_neg hvisited, if_pos hcheckpoint]
    · have hpos : 0 < c.maxVisited.toNat ↔ 0 < c.maxVisited := by omega
      simp only [if_neg hvisited, if_neg hcheckpoint, hpos]
      split_ifs <;> rfl

theorem exists_known {c : CheckConfig} (h : c.validate = .ok () ∨ c.validate = .error .conflict) :
    ∃ s r, c.Known s r := by
  by_cases hsource : c.model = "" ↔ c.remote = ""
  · simp [validate, if_pos hsource] at h
  · cases hs : Strategy.ofName? c.strategy with
    | none => simp [validate, if_neg hsource, hs] at h
    | some s =>
      cases hr : Reduction.ofName? c.reduction with
      | none => simp [validate, if_neg hsource, hs, hr] at h
      | some r =>
        refine ⟨s, r, ?_, hs, hr⟩
        by_cases hmodel : c.model = ""
        · exact .inr ⟨hmodel, fun hremote => hsource (iff_of_true hmodel hremote)⟩
        · exact .inl ⟨hmodel, by_contra fun hremote => hsource (iff_of_false hmodel hremote)⟩

theorem Known.checks_agree {c : CheckConfig} {s : Strategy} {r : Reduction} (h : c.Known s r) :
    (c.validate = .ok () ∧ Plan.make s.code c.settings = .ok (c.plan s r)) ∨
      ∃ e e', c.validate = .error e ∧ Plan.make s.code c.settings = .error e' ∧
        (e = .conflict ↔ e' = .option .conflict) ∧ (e = .conflict → r = .dpor ∧ 0 < c.maxVisited) := by
  rw [h.validate_eq, h.make_eq]
  split_ifs with hvisited hcheckpoint hconflict
  · exact .inr ⟨_, _, rfl, rfl, by simp, by simp⟩
  · exact .inr ⟨_, _, rfl, rfl, by simp, by simp⟩
  · exact .inr ⟨_, _, rfl, rfl, by simp, fun _ => hconflict⟩
  · exact .inl ⟨rfl, rfl⟩

theorem complete_reduction {env : Environment} {given : List String} {c : CheckConfig}
    (hvisited : 0 < (complete env given c).maxVisited)
    (hreduction : Reduction.ofName? (complete env given c).reduction = some .dpor) :
    Assoc.contains reductionVariable env = true ∨ reductionFlag ∈ given := by
  by_contra hunset
  push Not at hunset
  have hcount : (complete env given c).maxVisited = c.maxVisited := by
    rw [complete]
    split_ifs <;> rfl
  have hnone : (complete env given c).reduction = Reduction.none.name := by
    rw [complete, if_pos ⟨hcount ▸ hvisited, by simpa using hunset⟩]
  rw [hnone] at hreduction
  cases hreduction

/-- The configurations that are valid are those for which the exploration can be planned. Where both checks can be
asked, they refuse the same configurations, and because of a conflict in the same cases. A conflict takes a reduction
that was asked for, in the environment or by a flag, however the environment is read. -/
theorem configuration_checks_agree {read : EnvironmentReader CheckConfig} {env : Environment} {args : List String}
    {c : CheckConfig} (h : (parse read env args).outcome = .ok c) :
    (c.validate = .ok () → ∃ s r, c.Known s r ∧ Plan.make s.code c.settings = .ok (c.plan s r)) ∧
      (∀ s r, c.Known s r →
        ((∃ e, c.validate = .error e) ↔ ∃ e, Plan.make s.code c.settings = .error e) ∧
          (c.validate = .error .conflict ↔ Plan.make s.code c.settings = .error (.option .conflict))) ∧
      (c.validate = .error .conflict →
        (∃ text, Assoc.get? "MCHECK_REDUCTION" env = some text) ∨
          ∃ pairs rest text, Flags.Spells parameters args pairs rest ∧ ("reduction", text) ∈ pairs) := by
  refine ⟨fun hvalid => ?_, fun s r hknown => ?_, fun hconflict => ?_⟩
  · obtain ⟨s, r, hknown⟩ := exists_known (.inl hvalid)
    rcases hknown.checks_agree with ⟨-, hplan⟩ | ⟨e, e', hinvalid, -⟩
    · exact ⟨s, r, hknown, hplan⟩
    · rw [hvalid] at hinvalid
      cases hinvalid
  · rcases hknown.checks_agree with ⟨hvalid, hplan⟩ | ⟨e, e', hinvalid, hrefused, hiff, -⟩
    · simp [hvalid, hplan]
    · simp [hinvalid, hrefused, hiff]
  · obtain ⟨s, r, hknown⟩ := exists_known (.inr hconflict)
    obtain ⟨rfl, hvisited⟩ : r = .dpor ∧ 0 < c.maxVisited := by
      rcases hknown.checks_agree with ⟨hvalid, -⟩ | ⟨e, e', hinvalid, -, -, hcause⟩
      · rw [hvalid] at hconflict
        cases hconflict
      · rw [hinvalid] at hconflict
        exact hcause (Except.error.inj hconflict)
    obtain ⟨base, hflags, rfl⟩ := ConfigParse.run_eq_ok h
    obtain ⟨pairs, hspells, hgiven⟩ := Flags.read_spells hflags
    rcases complete_reduction hvisited hknown.reduction with henv | hflag
    · exact .inl (Option.isSome_iff_exists.mp henv)
    · rw [hgiven, List.append_nil, List.mem_reverse] at hflag
      obtain ⟨⟨name, text⟩, hpair, rfl⟩ := List.mem_map.mp hflag
      exact .inr ⟨pairs, _, text, hspells, hpair⟩

def insistentArguments : List String :=
  ["-model", "m.lua", "-reduction=none", "-max-visited-states", "0x10", "--reduction", "dpor"]

def insistent : CheckConfig :=
  { default with model := "m.lua", strategy := "udpor", reduction := "dpor", maxVisited := 16 }

theorem configuration_checks_agree_insistent :
    (parse Environment.read [("MCHECK_STRATEGY", "udpor")] insistentArguments).outcome = .ok insistent ∧
      insistent.Known .unfolding .dpor ∧ insistent.validate = .error .conflict ∧
      Plan.make Strategy.unfolding.code insistent.settings = .error (.option .conflict) ∧
      ∃ pairs rest text, Flags.Spells parameters insistentArguments pairs rest ∧ ("reduction", text) ∈ pairs := by
  have hparse : (parse Environment.read [("MCHECK_STRATEGY", "udpor")] insistentArguments).outcome = .ok insistent := by
    decide +kernel
  have hknown : insistent.Known .unfolding .dpor := ⟨.inl ⟨by decide, by decide⟩, by decide, by decide⟩
  have hconflict : insistent.validate = .error .conflict := by decide
  obtain ⟨-, hagree, hcause⟩ := configuration_checks_agree hparse
  refine ⟨hparse, hknown, hconflict, (hagree _ _ hknown).2.mp hconflict, ?_⟩
  rcases hcause hconflict with ⟨text, hset⟩ | hflag
  · have hunset : Assoc.get? "MCHECK_REDUCTION" [("MCHECK_STRATEGY", "udpor")] = none := by decide
    rw [hunset] at hset
    cases hset
  · exact hflag

end CheckConfig

end Interleave
