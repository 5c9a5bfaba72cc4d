import ScriptRefactor.Proofs.Path.Relative
import ScriptRefactor.Proofs.Refactoring.LinkSources
import ScriptRefactor.Session.References

/-!
# `ScriptRefactor.Proofs.Session.Redirects`: sources that lead from one module to another

A source leads to a module in one of three senses: to its file, to its file
without the extension, or to its directory (`Sense`). `redirect?` finds the
sense in which a source leads to the old module, and writes a source that
leads to the new one in the same sense (`redirect?_eq_some`); only if the
new one is no index file, a source for a directory becomes one for the file
without the extension (`Sense.toward`). What is written leads along the way
from the file to the module (`IsWay`).

The sources of a module are redirected one after the other, by what they
say and not by where they stand (`redirected`). A new source that says the
same as one that comes later in the list is redirected with it. It still
leads to the new module, but in another sense; where this does not happen,
all sources keep their senses (`redirected_redirects`).
-/

set_option autoImplicit false

namespace ScriptRefactor.Session

open ScriptRefactor.Path ScriptRefactor.Text Syntax

variable {file source origin target new : String}

/-! ### Senses -/

/-- How a source can lead to a module. -/
inductive Sense where
  /-- To its file. -/
  | exact
  /-- To its file without the extension. -/
  | bare
  /-- To its directory, if it is an index file. -/
  | directory
deriving DecidableEq

/-- The source leads from a file to a module. -/
def Sense.Leads (file source key : String) : Sense → Prop
  | exact => join (parent file) source = key
  | bare => join (parent file) source = join (parent key) (stemOf key)
  | directory => stemOf key = "index" ∧ join (parent file) source = parent key

instance (file source key : String) : (sense : Sense) → Decidable (sense.Leads file source key)
  | .exact => inferInstanceAs (Decidable (_ = _))
  | .bare => inferInstanceAs (Decidable (_ = _))
  | .directory => inferInstanceAs (Decidable (_ ∧ _))

/-- The first sense in which a relative source leads to a module. -/
def sense? (file source key : String) : Option Sense :=
  if source.toList.head? ≠ some '.' then none
  else [Sense.exact, .bare, .directory].find? fun sense => sense.Leads file source key

/-- The sense in which another module takes the place of one that a source
leads to: the directory only of another index file. -/
def Sense.toward (key : String) : Sense → Sense
  | directory => if stemOf key = "index" then directory else bare
  | sense => sense

/-- A source in the given sense. -/
def Sense.sourceOf (file key : String) : Sense → String
  | exact => moduleSource file key ++ dotExtension (fileName key)
  | bare => moduleSource file key
  | directory => directorySource (moduleSource file key)

/-- A source is redirected in the sense in which it leads to the old
module. -/
theorem redirect?_eq (file source origin target : String) :
    redirect? file source origin target
      = (sense? file source origin).map fun sense =>
          (sense.toward target).sourceOf file target := by
  unfold redirect? sense?
  split
  · rfl
  · -- The senses are tried in order: exact, bare, then as a directory.
    dsimp only
    by_cases hexact : Sense.exact.Leads file source origin
    · have hjoin : join (parent file) source = origin := hexact
      rw [if_pos hjoin, List.find?_cons_of_pos (by simpa using hexact)]
      rfl
    · have hjoin : join (parent file) source ≠ origin := hexact
      rw [if_neg hjoin, List.find?_cons_of_neg (by simpa using hexact)]
      by_cases hbare : Sense.bare.Leads file source origin
      · have hjoin : join (parent file) source = join (parent origin) (stemOf origin) := hbare
        rw [if_pos hjoin, List.find?_cons_of_pos (by simpa using hbare)]
        rfl
      · have hjoin : join (parent file) source ≠ join (parent origin) (stemOf origin) := hbare
        rw [if_neg hjoin, List.find?_cons_of_neg (by simpa using hbare)]
        by_cases hdir : Sense.directory.Leads file source origin
        · have hjoin : stemOf origin = "index" ∧ join (parent file) source = parent origin := hdir
          rw [if_pos hjoin, List.find?_cons_of_pos (by simpa using hdir), Option.map_some,
            Sense.toward]
          split <;> rfl
        · have hjoin : ¬ (stemOf origin = "index" ∧ join (parent file) source = parent origin) :=
            hdir
          rw [if_neg hjoin, List.find?_cons_of_neg (by simpa using hdir)]
          rfl

/-! ### Names with and without their extension -/

/-- A name is its stem and its extension. -/
theorem dropExtension_append_dotExtension (name : String) :
    dropExtension name ++ dotExtension name = name := by
  unfold dropExtension dotExtension
  cases hcut : splitLast? '.' name.toList with
  | none => simp
  | some cut =>
      obtain ⟨stem, ext⟩ := cut
      dsimp only
      split
      · simp
      · have hname := congrArg String.ofList ((splitLast?_eq_some_iff.mp hcut).1)
        rw [String.ofList_toList] at hname
        rw [hname, ← List.singleton_append, String.ofList_append, String.ofList_append]

/-- The file at a path has a stem. -/
theorem stemOf_ne_empty {key : String} (h : Inside key) : stemOf key ≠ "" := by
  obtain ⟨names, hne, hnames, rfl⟩ := h
  rw [← List.dropLast_concat_getLast hne] at hnames ⊢
  have hlast := hnames (names.getLast hne) (by simp)
  rw [stemOf, fileName_ofNames hlast]
  intro h
  have hhead := head_dropExtension (String.ofList (names.getLast hne))
  rw [h, String.toList_ofList (l := names.getLast hne)] at hhead
  exact hlast.1.1 (List.head?_eq_none_iff.mp hhead.symm)

/-- The source of an index file without its last segment. -/
theorem directorySource_eq {front : List Char} (hsource : source.toList = front ++ "/index".toList)
    (hne : front ≠ []) : directorySource source = String.ofList front := by
  have hends : endsWith "/index".toList source.toList = true := by
    rw [endsWith, startsWith, hsource, List.reverse_append]
    exact Option.isSome_iff_exists.mpr ⟨_, afterPrefix?_eq_some_iff.mpr rfl⟩
  have htake : source.toList.take (source.toList.length - 6) = front := by
    rw [hsource]
    simp
  rw [directorySource]
  dsimp only
  rw [if_pos hends, htake, if_neg (by simpa using hne)]

/-! ### Where sources lead -/

/-- The way from a file to a module: from the directory of the file through
some segments to names that both share, and from these down to the module. -/
structure IsWay (file key : String) (shared way down : List (List Char)) (last : List Char) :
    Prop where
  /-- The names of the module. -/
  key_eq : key = ofNames (shared ++ down ++ [last])
  /-- Its directory has names. -/
  directory : ∀ m ∈ shared ++ down, IsName m
  /-- So does its file. -/
  name : IsName last
  /-- So it has without its extension. -/
  stem : IsName (dropExtension (String.ofList last)).toList
  /-- What is written for the module. -/
  source : (moduleSource file key).toList
    = joinWith ['/'] (way ++ down ++ [(dropExtension (String.ofList last)).toList])
  /-- It starts with a dot. -/
  head : (moduleSource file key).toList.head? = some '.'
  /-- Names behind the way lead down from the shared ones. -/
  leads : ∀ rest : List (List Char), (∀ m ∈ rest, IsName m) → way ++ rest ≠ [] →
    join (parent file) (String.ofList (joinWith ['/'] (way ++ rest))) = ofNames (shared ++ rest)

/-- There is a way from each file to each module. -/
theorem exists_isWay (hfile : Inside file) (htarget : Inside target)
    (hdot : stemOf target ≠ ".") (hup : stemOf target ≠ "..") :
    ∃ shared way down last, IsWay file target shared way down last := by
  obtain ⟨names, hne, hnames, rfl⟩ := hfile
  obtain ⟨names', hne', hnames', rfl⟩ := htarget
  rw [← List.dropLast_concat_getLast hne] at hnames ⊢
  rw [← List.dropLast_concat_getLast hne'] at hnames' hdot hup ⊢
  generalize names.dropLast = b, names.getLast hne = n at hnames ⊢
  generalize names'.dropLast = c, names'.getLast hne' = m at hnames' hdot hup ⊢
  obtain ⟨hb, hn⟩ := List.forall_mem_append.mp hnames
  obtain ⟨hc, hm⟩ := List.forall_mem_append.mp hnames'
  rw [List.forall_mem_singleton] at hn hm
  rw [stemOf, fileName_ofNames hm] at hdot hup
  obtain ⟨p, b', c', lead, rfl, rfl, hlead, hsource, hhead⟩ := exists_moduleSource hb hn.2.1 hc hm
  obtain ⟨hp, hb'⟩ := List.forall_mem_append.mp hb
  refine ⟨p, lead ++ List.replicate b'.length up, c', m, rfl, hc, hm,
    isName_dropExtension hm hdot hup, hsource, hhead, fun rest hrest _ => ?_⟩
  rw [parent_ofNames hn]
  exact join_relative hp hb' hrest hlead

namespace IsWay

variable {shared way down : List (List Char)} {last : List Char}
  (h : IsWay file target shared way down last)

include h

/-- The file of the module. -/
theorem fileName_eq : fileName target = String.ofList last := by
  rw [h.key_eq, fileName_ofNames h.name]

/-- Its stem. -/
theorem stemOf_eq : stemOf target = dropExtension (String.ofList last) := by
  rw [stemOf, h.fileName_eq]

/-- Its directory. -/
theorem parent_eq : parent target = ofNames (shared ++ down) := by
  rw [h.key_eq, parent_ofNames h.name]

/-- With its extension, the source leads to the file. -/
theorem leads_exact : Sense.exact.Leads file (Sense.exact.sourceOf file target) target := by
  have hlong : moduleSource file target ++ dotExtension (String.ofList last)
      = String.ofList (joinWith ['/'] (way ++ (down ++ [last]))) := by
    rw [← String.ofList_toList (s := _ ++ _), String.toList_append, h.source,
      joinWith_append_last, ← String.toList_append, dropExtension_append_dotExtension,
      String.toList_ofList, List.append_assoc]
  have hnames : ∀ m ∈ down ++ [last], IsName m :=
    List.forall_mem_append.mpr ⟨(List.forall_mem_append.mp h.directory).2, by simpa using h.name⟩
  rw [Sense.Leads, Sense.sourceOf, h.fileName_eq, hlong, h.leads _ hnames (by simp),
    h.key_eq, List.append_assoc]

/-- Without it, the source leads to where the file would be. -/
theorem leads_bare : Sense.bare.Leads file (Sense.bare.sourceOf file target) target := by
  have hjoin := join_ofNames h.directory h.stem
  rw [String.ofList_toList] at hjoin
  have hnames : ∀ m ∈ down ++ [(dropExtension (String.ofList last)).toList], IsName m :=
    List.forall_mem_append.mpr ⟨(List.forall_mem_append.mp h.directory).2, by simpa using h.stem⟩
  rw [Sense.Leads, Sense.sourceOf, h.parent_eq, h.stemOf_eq, hjoin,
    ← String.ofList_toList (s := moduleSource file target), h.source, List.append_assoc,
    h.leads _ hnames (by simp), List.append_assoc]

/-- What is in front of the last segment of an index file's source is not
empty: the source starts with a dot, and its last segment does not. -/
theorem front_ne_nil (hindex : stemOf target = "index") :
    way ++ down ≠ [] ∧ joinWith ['/'] (way ++ down) ≠ [] := by
  have hlast : (dropExtension (String.ofList last)).toList = "index".toList := by
    rw [← h.stemOf_eq, hindex]
  have hhead := h.head
  rw [h.source, hlast] at hhead
  have hne : way ++ down ≠ [] := by
    intro hnil
    rw [hnil] at hhead
    exact absurd hhead (by decide)
  refine ⟨hne, fun hnil => ?_⟩
  rw [joinWith_snoc '/' hne, hnil] at hhead
  exact absurd hhead (by decide)

/-- The directory of an index file is the source without the last segment. -/
theorem directory_sourceOf (hindex : stemOf target = "index") :
    Sense.directory.sourceOf file target = String.ofList (joinWith ['/'] (way ++ down)) := by
  have hsource := h.source
  rw [← h.stemOf_eq, hindex, joinWith_snoc '/' (h.front_ne_nil hindex).1] at hsource
  have hdirectory := directorySource_eq hsource (h.front_ne_nil hindex).2
  rw [Sense.sourceOf, hdirectory]

end IsWay

/-- A source leads in the sense in which it is written, and starts with a
dot. -/
theorem Sense.leads_sourceOf (hfile : Inside file) (htarget : Inside target)
    (hdot : stemOf target ≠ ".") (hup : stemOf target ≠ "..") (sense : Sense)
    (hindex : sense = directory → stemOf target = "index") :
    sense.Leads file (sense.sourceOf file target) target ∧
      (sense.sourceOf file target).toList.head? = some '.' := by
  obtain ⟨shared, way, down, last, h⟩ := exists_isWay hfile htarget hdot hup
  cases sense with
  | exact =>
      refine ⟨h.leads_exact, ?_⟩
      rw [Sense.sourceOf, String.toList_append, List.head?_append, h.head]
      rfl
  | bare => exact ⟨h.leads_bare, h.head⟩
  | directory =>
      have hindex := hindex rfl
      obtain ⟨hne, hfront⟩ := h.front_ne_nil hindex
      rw [Sense.Leads, h.directory_sourceOf hindex]
      refine ⟨⟨hindex, ?_⟩, ?_⟩
      · rw [h.leads down (List.forall_mem_append.mp h.directory).2 hne, h.parent_eq]
      · -- The source starts where it did, as only its end was taken off.
        have hhead := h.head
        rw [h.source, joinWith_snoc '/' hne, List.head?_append_of_ne_nil _ hfront] at hhead
        rw [String.toList_ofList, hhead]

/-- What is written to take the place of a source leads to the module. -/
theorem Sense.leads_toward (hfile : Inside file) (htarget : Inside target)
    (hdot : stemOf target ≠ ".") (hup : stemOf target ≠ "..") (sense : Sense) :
    (sense.toward target).Leads file ((sense.toward target).sourceOf file target) target ∧
      ((sense.toward target).sourceOf file target).toList.head? = some '.' := by
  refine Sense.leads_sourceOf hfile htarget hdot hup _ fun hdir => ?_
  cases sense with
  | exact => cases hdir
  | bare => cases hdir
  | directory =>
      by_contra hindex
      rw [toward, if_neg hindex] at hdir
      cases hdir

/-- A redirected source leads to the old module, and the new one to the
new module, in the same sense, unless the old module is an index file and
the new one is not. -/
theorem redirect?_eq_some (hfile : Inside file) (htarget : Inside target)
    (hdot : stemOf target ≠ ".") (hup : stemOf target ≠ "..")
    (h : redirect? file source origin target = some new) :
    ∃ sense, sense? file source origin = some sense ∧
      (sense.toward target).Leads file new target ∧ new.toList.head? = some '.' := by
  rw [redirect?_eq] at h
  obtain ⟨sense, hsense, rfl⟩ := Option.map_eq_some_iff.mp h
  exact ⟨sense, hsense, Sense.leads_toward hfile htarget hdot hup sense⟩

/-! ### One source after the other -/

/-- A source with others put in the place of some, one after the other. -/
def redirected (pairs : List (String × String)) (source : String) : String :=
  pairs.foldl (fun s p => if s = p.1 then p.2 else s) source

/-- A source that is not to be redirected stays. -/
theorem redirected_of_not_mem {pairs : List (String × String)}
    (h : source ∉ pairs.map Prod.fst) : redirected pairs source = source := by
  induction pairs with
  | nil => rfl
  | cons p pairs ih =>
      rw [List.map_cons, List.mem_cons, not_or] at h
      rw [redirected, List.foldl_cons, if_neg h.1]
      exact ih h.2

/-- A source that is to be redirected becomes one of the new ones. -/
theorem redirected_of_mem {pairs : List (String × String)} (h : source ∈ pairs.map Prod.fst) :
    ∃ p ∈ pairs, redirected pairs source = p.2 := by
  induction pairs generalizing source with
  | nil => cases h
  | cons p pairs ih =>
      rw [redirected, List.foldl_cons]
      by_cases hp : source = p.1
      · rw [if_pos hp]
        by_cases hnext : p.2 ∈ pairs.map Prod.fst
        · obtain ⟨q, hq, hredirected⟩ := ih hnext
          exact ⟨q, List.mem_cons_of_mem p hq, hredirected⟩
        · exact ⟨p, List.mem_cons_self, redirected_of_not_mem hnext⟩
      · rw [if_neg hp]
        rw [List.map_cons, List.mem_cons] at h
        obtain ⟨q, hq, hredirected⟩ := ih (h.resolve_left hp)
        exact ⟨q, List.mem_cons_of_mem p hq, hredirected⟩

/-- No new source is one that is to be redirected elsewhere later on. -/
def Settled (pairs : List (String × String)) : Prop :=
  pairs.Pairwise fun p q => p.2 = q.1 → q.2 = q.1

instance (pairs : List (String × String)) : Decidable (Settled pairs) :=
  inferInstanceAs (Decidable (pairs.Pairwise fun p q => p.2 = q.1 → q.2 = q.1))

/-- A source stays if it is not to be redirected elsewhere. -/
theorem redirected_of_stays {pairs : List (String × String)}
    (h : ∀ q ∈ pairs, source = q.1 → q.2 = q.1) : redirected pairs source = source := by
  induction pairs with
  | nil => rfl
  | cons p pairs ih =>
      obtain ⟨hp, hpairs⟩ := List.forall_mem_cons.mp h
      have hstep : (if source = p.1 then p.2 else source) = source := by
        split
        · rename_i heq
          rw [hp heq, heq]
        · rfl
      rw [redirected, List.foldl_cons, hstep]
      exact ih hpairs

/-- Sources are redirected by the front and then by the rest. -/
theorem redirected_append (before after : List (String × String)) (source : String) :
    redirected (before ++ after) source = redirected after (redirected before source) :=
  List.foldl_append

/-- A source becomes what the rest makes of the one that is to take its
place. -/
theorem redirected_append_cons {before after : List (String × String)}
    (hnodup : ((before ++ (source, new) :: after).map Prod.fst).Nodup) :
    redirected (before ++ (source, new) :: after) source = redirected after new := by
  rw [List.map_append, List.map_cons, List.nodup_append] at hnodup
  have hfront := redirected_of_not_mem
    fun hmem : source ∈ before.map Prod.fst => hnodup.2.2 source hmem source (by simp) rfl
  rw [redirected_append, hfront, redirected, List.foldl_cons, if_pos rfl, redirected]

/-- A source becomes the one that is to take its place, if no new source is
to be redirected elsewhere later on. -/
theorem redirected_of_settled {pairs : List (String × String)} (hsettled : Settled pairs)
    (hnodup : (pairs.map Prod.fst).Nodup) (h : (source, new) ∈ pairs) :
    redirected pairs source = new := by
  obtain ⟨before, after, rfl⟩ := List.append_of_mem h
  obtain ⟨-, hbehind, -⟩ := List.pairwise_append.mp hsettled
  rw [redirected_append_cons hnodup]
  exact redirected_of_stays (List.pairwise_cons.mp hbehind).1

/-- A source becomes the one that is to take its place, if that is not to
be redirected itself. -/
theorem redirected_of_last {pairs : List (String × String)}
    (hnodup : (pairs.map Prod.fst).Nodup) (h : (source, new) ∈ pairs)
    (hlast : new ∉ pairs.map Prod.fst) : redirected pairs source = new := by
  obtain ⟨before, after, rfl⟩ := List.append_of_mem h
  rw [redirected_append_cons hnodup]
  exact redirected_of_not_mem fun hmem => hlast (by simp [hmem])

/-! ### The sources of a module -/

/-- What is left of a list without its later equal members, taken onto what
was left of those in front. -/
theorem foldl_distinct (names seen : List String) (hseen : seen.Nodup) :
    let left := names.foldl
      (fun seen name => if seen.contains name then seen else name :: seen) seen
    left.Nodup ∧ ∀ name, name ∈ left ↔ name ∈ names ∨ name ∈ seen := by
  induction names generalizing seen with
  | nil => exact ⟨hseen, by simp⟩
  | cons n names ih =>
      rw [List.foldl_cons]
      split
      · rename_i hmem
        obtain ⟨hnodup, hleft⟩ := ih seen hseen
        refine ⟨hnodup, fun name => (hleft name).trans ?_⟩
        have hmem : n ∈ seen := List.contains_iff_mem.mp hmem
        rw [List.mem_cons]
        refine ⟨fun h => h.imp_left .inr, ?_⟩
        rintro ((rfl | h) | h)
        · exact .inr hmem
        · exact .inl h
        · exact .inr h
      · rename_i hmem
        have hmem : n ∉ seen := fun h => hmem (List.contains_iff_mem.mpr h)
        obtain ⟨hnodup, hleft⟩ := ih (n :: seen) (List.nodup_cons.mpr ⟨hmem, hseen⟩)
        refine ⟨hnodup, fun name => (hleft name).trans ?_⟩
        rw [List.mem_cons, List.mem_cons]
        tauto

/-- Each source of a module is named once. -/
theorem nodup_moduleSources (t : Tree) : (Refactoring.moduleSources t).Nodup :=
  List.nodup_reverse.mpr (foldl_distinct _ [] List.nodup_nil).1

/-- The sources of a module are those of its links. -/
theorem mem_moduleSources {t : Tree} :
    source ∈ Refactoring.moduleSources t ↔ some source ∈ Refactoring.sourcesOf t := by
  have hleft := (foldl_distinct
    ((Refactoring.linksOf t).filterMap (Refactoring.sourceOf? t)) [] List.nodup_nil).2 source
  rw [Refactoring.moduleSources, Refactoring.distinct, List.mem_reverse, hleft,
    Refactoring.sourcesOf, List.mem_filterMap, List.mem_map]
  simp

/-- The sources of a module that lead to the old module are redirected. -/
theorem mem_redirects {t : Tree} : (source, new) ∈ redirects t file origin target ↔
    some source ∈ Refactoring.sourcesOf t ∧ redirect? file source origin target = some new := by
  rw [redirects, List.mem_filterMap, ← mem_moduleSources]
  constructor
  · rintro ⟨s, hs, heq⟩
    obtain ⟨n, hn, heq⟩ := Option.map_eq_some_iff.mp heq
    cases heq
    exact ⟨hs, hn⟩
  · rintro ⟨hs, hn⟩
    exact ⟨source, hs, by rw [hn]; rfl⟩

/-- A source that is redirected is not empty, nor is the new one. -/
theorem redirect?_ne_empty (hfile : Inside file) (htarget : Inside target)
    (hdot : stemOf target ≠ ".") (hup : stemOf target ≠ "..")
    (h : redirect? file source origin target = some new) : source ≠ "" ∧ new ≠ "" := by
  obtain ⟨sense, hsense, -, hhead⟩ := redirect?_eq_some hfile htarget hdot hup h
  constructor
  · rintro rfl
    cases hsense
  · rintro rfl
    cases hhead

/-- Each of them is redirected once. -/
theorem nodup_redirects (t : Tree) (file origin target : String) :
    ((redirects t file origin target).map Prod.fst).Nodup := by
  rw [redirects, List.map_filterMap]
  refine (nodup_moduleSources t).filterMap fun s s' b hb hb' => ?_
  rw [Option.map_map] at hb hb'
  obtain ⟨_, -, hs⟩ := Option.map_eq_some_iff.mp hb
  obtain ⟨_, -, hs'⟩ := Option.map_eq_some_iff.mp hb'
  exact hs.trans hs'.symm

/-- **What a source of a module comes to.** It stays if it does not lead to
the old module. If it does, it comes to lead to the new module; and in the
same sense, unless what it was to become is redirected once more. -/
theorem redirected_redirects (hfile : Inside file) (htarget : Inside target)
    (hdot : stemOf target ≠ ".") (hup : stemOf target ≠ "..") {t : Tree}
    (hsource : some source ∈ Refactoring.sourcesOf t) :
    let pairs := redirects t file origin target
    (sense? file source origin = none → redirected pairs source = source) ∧
      ∀ sense, sense? file source origin = some sense →
        (redirected pairs source).toList.head? = some '.' ∧
        (∃ any : Sense, any.Leads file (redirected pairs source) target) ∧
        (Settled pairs → (sense.toward target).Leads file (redirected pairs source) target) := by
  intro pairs
  refine ⟨fun hnone => redirected_of_not_mem fun hmem => ?_, fun sense hsense => ?_⟩
  · obtain ⟨⟨same, new⟩, hpair, rfl⟩ := List.mem_map.mp hmem
    have hredirect := (mem_redirects.mp hpair).2
    rw [redirect?_eq, hnone] at hredirect
    cases hredirect
  · have hredirect : redirect? file source origin target
        = some ((sense.toward target).sourceOf file target) := by rw [redirect?_eq, hsense]; rfl
    have hpair := mem_redirects.mpr ⟨hsource, hredirect⟩
    obtain ⟨⟨other, new⟩, hmem, hnew⟩ := redirected_of_mem (List.mem_map_of_mem hpair)
    obtain ⟨any, -, hleads, hhead⟩ :=
      redirect?_eq_some hfile htarget hdot hup (mem_redirects.mp hmem).2
    have hnew : redirected pairs source = new := hnew
    refine ⟨hnew ▸ hhead, ⟨any.toward target, hnew ▸ hleads⟩, fun hsettled => ?_⟩
    obtain ⟨same, hsame, hleads, -⟩ := redirect?_eq_some hfile htarget hdot hup hredirect
    obtain rfl := Option.some.inj (hsense.symm.trans hsame)
    rw [redirected_of_settled hsettled (nodup_redirects t file origin target) hpair]
    exact hleads

end ScriptRefactor.Session
