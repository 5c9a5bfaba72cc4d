import ScriptRefactor.Proofs.Session.Redirects

/-!
# `ScriptRefactor.Proofs.Session.Senses`: when redirected sources keep their senses

A source that is redirected twice does not keep its sense: what it becomes
at first leads to the new module and to the old one, so the two are next to
each other in name or in place (`Sense.place`), and the second time it
comes to lead to the new module in another sense. It is not redirected a
third time (`redirect?_twice`). So all redirected sources of a module keep
their senses if and only if none of them is redirected twice
(`keep_senses_iff_settled`).
-/

set_option autoImplicit false

namespace ScriptRefactor.Session

open ScriptRefactor.Path ScriptRefactor.Text Syntax

variable {file source origin target via new : String} {b c : List (List Char)} {n m : List Char}

/-! ### Names without their extension -/

/-- A name without its extension. -/
def bareName (n : List Char) : List Char := (dropExtension (String.ofList n)).toList

/-- A name without its extension is shorter, if it has one. -/
theorem length_bareName (n : List Char) :
    bareName n = n ∨ (bareName n).length < n.length := by
  unfold bareName dropExtension
  rw [String.toList_ofList]
  cases hcut : splitLast? '.' n with
  | none => exact .inl String.toList_ofList
  | some cut =>
      obtain ⟨stem, ext⟩ := cut
      dsimp only
      split
      · exact .inl String.toList_ofList
      · refine .inr ?_
        rw [String.toList_ofList, (splitLast?_eq_some_iff.mp hcut).1, List.length_append, List.length_cons]
        omega

/-- Two names are not each the other without its extension. -/
theorem bareName_antisymm (hm : m = bareName n) (hn : n = bareName m) : n = m := by
  rcases length_bareName n with h | h
  · exact (hm.trans h).symm
  · rcases length_bareName m with h' | h'
    · exact hn.trans h'
    · rw [← hm] at h
      rw [← hn] at h'
      omega

/-! ### Places -/

/-- The place to which a source leads that leads to a module in a sense. -/
def Sense.place (b : List (List Char)) (n : List Char) : Sense → List (List Char)
  | exact => b ++ [n]
  | bare => b ++ [bareName n]
  | directory => b

/-- A source that leads to a module leads to the place of its sense. -/
theorem Sense.Leads.join_eq (hb : ∀ m ∈ b, IsName m) (hn : IsName n)
    (hbare : IsName (bareName n)) {sense : Sense}
    (h : sense.Leads file source (ofNames (b ++ [n]))) :
    join (parent file) source = ofNames (sense.place b n) := by
  cases sense with
  | exact => exact h
  | bare =>
      have hjoin := join_ofNames hb hbare
      rw [bareName, String.ofList_toList, ← fileName_ofNames (b := b) hn] at hjoin
      rw [Sense.place, bareName, ← fileName_ofNames (b := b) hn, ← hjoin, ← parent_ofNames hn]
      exact h
  | directory =>
      rw [Sense.place, ← parent_ofNames hn]
      exact h.2

/-- The places of a module have names. -/
theorem Sense.isName_place (hb : ∀ m ∈ b, IsName m) (hn : IsName n)
    (hbare : IsName (bareName n)) (sense : Sense) : ∀ m ∈ sense.place b n, IsName m := by
  cases sense with
  | exact => exact List.forall_mem_append.mpr ⟨hb, List.forall_mem_singleton.mpr hn⟩
  | bare => exact List.forall_mem_append.mpr ⟨hb, List.forall_mem_singleton.mpr hbare⟩
  | directory => exact hb

/-- Sources for one module that lead to one place read alike. -/
theorem Sense.sourceOf_congr (hn : IsName n) {sense other : Sense}
    (h : sense.place b n = other.place b n) (file : String) :
    sense.sourceOf file (ofNames (b ++ [n])) = other.sourceOf file (ofNames (b ++ [n])) := by
  have hlength := congrArg List.length h
  have hshort (heq : b ++ [n] = b ++ [bareName n]) :
      exact.sourceOf file (ofNames (b ++ [n])) = bare.sourceOf file (ofNames (b ++ [n])) := by
    have heq : n = bareName n := List.singleton_inj.mp (List.append_cancel_left heq)
    have hwhole := congrArg String.toList (dropExtension_append_dotExtension (String.ofList n))
    rw [String.toList_append, ← bareName, String.toList_ofList] at hwhole
    have hnil : dotExtension (String.ofList n) = "" :=
      String.ext (List.append_right_eq_self.mp ((congrArg (· ++ _) heq).trans hwhole))
    rw [sourceOf, fileName_ofNames hn, hnil]
    exact String.append_empty
  cases sense <;> cases other
  case exact.exact | bare.bare | directory.directory => rfl
  case exact.bare => exact hshort h
  case bare.exact => exact (hshort h.symm).symm
  all_goals simp [place] at hlength

/-- If a source for the new module leads to the old one too, the source in
its place for the new module leads to another place, which is none of the
old module. -/
theorem Sense.place_ne_of_hop (hne : b ++ [n] ≠ c ++ [m]) {sense old again : Sense}
    {goal : Sense} (hgoal : goal = old ∨ (old = directory ∧ goal = bare ∧ sense ≠ directory))
    (hvia : sense.place c m = old.place b n) (hother : sense.place c m ≠ goal.place c m) :
    goal.place c m ≠ again.place b n := by
  intro hagain
  have hlength := congrArg List.length hvia
  have hlength' := congrArg List.length hagain
  have hends : b = c → m = bareName n → n ≠ bareName m := fun hb hm hn =>
    hne (by rw [hb, bareName_antisymm hm hn])
  rcases hgoal with rfl | ⟨rfl, rfl, hsense⟩
  · cases sense <;> cases goal <;> cases again <;>
      simp only [place, List.length_append, List.length_singleton, List.append_singleton_inj]
        at * <;> grind
  · cases sense <;> cases again <;>
      simp only [place, List.length_append, List.length_singleton] at * <;> grind

/-! ### Sources that are redirected twice -/

/-- The sense of a source is one in which it leads to the module. -/
theorem leads_of_sense? {key : String} {sense : Sense} (h : sense? file source key = some sense) :
    sense.Leads file source key := by
  unfold sense? at h
  split at h
  · cases h
  · have hleads := List.find?_some h
    exact of_decide_eq_true hleads

/-- The names of a file whose stem is a name. -/
theorem exists_names_of_stem {key : String} (h : Inside key)
    (hstem : stemOf key ≠ "." ∧ stemOf key ≠ "..") :
    ∃ b n, (∀ m ∈ b, IsName m) ∧ IsName n ∧ IsName (bareName n) ∧ key = ofNames (b ++ [n]) := by
  obtain ⟨names, hne, hnames, rfl⟩ := h
  rw [← List.dropLast_concat_getLast hne] at hnames hstem ⊢
  obtain ⟨hb, hn⟩ := List.forall_mem_append.mp hnames
  rw [List.forall_mem_singleton] at hn
  rw [stemOf, fileName_ofNames hn] at hstem
  exact ⟨_, _, hb, hn, isName_dropExtension hn hstem.1 hstem.2, rfl⟩

/-- The sense in which another module takes the place of the old one is the
same, or the module takes the place of a directory without having one. -/
theorem Sense.toward_eq_or (key : String) (sense other : Sense) :
    sense.toward key = sense ∨
      (sense = directory ∧ sense.toward key = bare ∧ other.toward key ≠ directory) := by
  cases sense with
  | exact => exact .inl rfl
  | bare => exact .inl rfl
  | directory =>
      by_cases hindex : stemOf key = "index"
      · exact .inl (if_pos hindex)
      · refine .inr ⟨rfl, if_neg hindex, ?_⟩
        cases other <;> simp [toward, hindex]

/-- A source that is redirected to one that is redirected elsewhere does
not come to lead to the new module in its sense, and the last one is not
redirected once more. -/
theorem redirect?_twice (hfile : Inside file) (horigin : Inside origin) (htarget : Inside target)
    (hne : origin ≠ target) (hstem : stemOf origin ≠ "." ∧ stemOf origin ≠ "..")
    (hstem' : stemOf target ≠ "." ∧ stemOf target ≠ "..")
    (hfirst : redirect? file source origin target = some via)
    (hsecond : redirect? file via origin target = some new) (hother : new ≠ via) :
    redirect? file new origin target = none ∧
      ∀ sense, sense? file source origin = some sense →
        ¬ (sense.toward target).Leads file new target := by
  rw [redirect?_eq] at hfirst hsecond
  obtain ⟨sense, hsense, rfl⟩ := Option.map_eq_some_iff.mp hfirst
  obtain ⟨old, hold, rfl⟩ := Option.map_eq_some_iff.mp hsecond
  have hvia := (Sense.leads_toward hfile htarget hstem'.1 hstem'.2 sense).1
  have hnew := (Sense.leads_toward hfile htarget hstem'.1 hstem'.2 old).1
  have hgoal := old.toward_eq_or target sense
  have hviaOld := leads_of_sense? hold
  obtain ⟨b, n, hb, hn, hbare, rfl⟩ := exists_names_of_stem horigin hstem
  obtain ⟨c, m, hc, hm, hbare', rfl⟩ := exists_names_of_stem htarget hstem'
  -- The places of the two sources that are written.
  have hplaceVia := hvia.join_eq hc hm hbare'
  have hplaceNew := hnew.join_eq hc hm hbare'
  have hsame : (sense.toward (ofNames (c ++ [m]))).place c m = old.place b n :=
    (ofNames_inj (Sense.isName_place hc hm hbare' _) (Sense.isName_place hb hn hbare _)).mp
      (hplaceVia.symm.trans (hviaOld.join_eq hb hn hbare))
  have hapart : (sense.toward (ofNames (c ++ [m]))).place c m
      ≠ (old.toward (ofNames (c ++ [m]))).place c m :=
    fun h => hother (Sense.sourceOf_congr hm h.symm file)
  refine ⟨?_, fun sense' hsense' hleads => ?_⟩
  · rw [redirect?_eq, Option.map_eq_none_iff]
    refine Option.eq_none_iff_forall_ne_some.mpr fun again hagain => ?_
    have hplace := (leads_of_sense? hagain).join_eq hb hn hbare
    exact Sense.place_ne_of_hop (fun h => hne (congrArg ofNames h)) hgoal hsame hapart
      ((ofNames_inj (Sense.isName_place hc hm hbare' _) (Sense.isName_place hb hn hbare _)).mp
        (hplaceNew.symm.trans hplace))
  · obtain rfl := Option.some.inj (hsense.symm.trans hsense')
    exact hapart ((ofNames_inj (Sense.isName_place hc hm hbare' _)
      (Sense.isName_place hc hm hbare' _)).mp
        ((hleads.join_eq hc hm hbare').symm.trans hplaceNew))

/-- **Which modules keep the senses of their sources.** All redirected
sources lead to the new module in their senses if and only if no new source
is redirected elsewhere later on. -/
theorem keep_senses_iff_settled (hfile : Inside file) (horigin : Inside origin)
    (htarget : Inside target) (hne : origin ≠ target)
    (hstem : stemOf origin ≠ "." ∧ stemOf origin ≠ "..")
    (hstem' : stemOf target ≠ "." ∧ stemOf target ≠ "..") (t : Tree) :
    let pairs := redirects t file origin target
    (∀ source, some source ∈ Refactoring.sourcesOf t → ∀ sense,
      sense? file source origin = some sense →
        (sense.toward target).Leads file (redirected pairs source) target) ↔ Settled pairs := by
  intro pairs
  refine ⟨fun hkeep => ?_, fun hsettled source hsource sense hsense =>
    ((redirected_redirects hfile htarget hstem'.1 hstem'.2 hsource).2 sense hsense).2.2 hsettled⟩
  refine List.pairwise_iff_forall_sublist.mpr fun {p q} hsub hvia => ?_
  by_contra hother
  -- The first source becomes the second one, and what that is to become.
  obtain ⟨source, via⟩ := p
  obtain ⟨same, new⟩ := q
  obtain rfl : via = same := hvia
  obtain ⟨before, after, hpairs, hp, hq⟩ := List.cons_sublist_iff.mp hsub
  rw [List.singleton_sublist] at hq
  have hfirst := mem_redirects.mp (hpairs ▸ List.mem_append_left after hp : (source, via) ∈ pairs)
  have hsecond := mem_redirects.mp (hpairs ▸ List.mem_append_right before hq : (via, new) ∈ pairs)
  obtain ⟨hnone, hleads⟩ :=
    redirect?_twice hfile horigin htarget hne hstem hstem' hfirst.2 hsecond.2 hother
  have hlast : new ∉ pairs.map Prod.fst := fun hmem => by
    obtain ⟨⟨_, next⟩, hpair, rfl⟩ := List.mem_map.mp hmem
    exact Option.some_ne_none next ((mem_redirects.mp hpair).2.symm.trans hnone)
  have hnodup : (pairs.map Prod.fst).Nodup := nodup_redirects t file origin target
  rw [hpairs, List.map_append] at hnodup hlast
  obtain ⟨hbefore, hafter, hapart⟩ := List.nodup_append.mp hnodup
  have hend : redirected pairs source = new := by
    rw [hpairs, redirected_append, redirected_of_last hbefore hp fun hmem =>
      hapart via hmem via (List.mem_map_of_mem hq) rfl]
    exact redirected_of_last hafter hq fun hmem => hlast (List.mem_append_right _ hmem)
  obtain ⟨sense, hsense, -⟩ := redirect?_eq_some hfile htarget hstem'.1 hstem'.2 hfirst.2
  exact hleads sense hsense (hend ▸ hkeep source hfirst.1 sense hsense)

end ScriptRefactor.Session
