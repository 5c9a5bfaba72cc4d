import Mathlib.Data.List.Induction
import ScriptRefactor.Module.Discovery
import ScriptRefactor.Proofs.Table

/-!
# `ScriptRefactor.Proofs.Syntax.TreeCache`: the cache keeps what the parser says

Behind any calls, the cache holds of each path what the parser makes of the
text that was asked for last, unless the path was dropped since
(`lastParse?`): a tree under the digest of its text, or an error
(`Reflects`). So a tree that is asked for is the one that the parser reads,
be it kept or not (`Reflects.parseAs_fst`).

A kept tree is found by the digest of the text. For this to be the right
tree, two texts of one path must not share a digest (`Tells`).
-/

set_option autoImplicit false

namespace ScriptRefactor.Syntax

variable {dialect : Dialect} {path text : String} {t : Tree} {c : TreeCache}

/-! ### Single trees -/

/-- A parsed tree has the text and the dialect that were parsed. -/
theorem Tree.of_parse {path? : Option String} (h : Tree.parse dialect path? text = .ok t) :
    t.source = text ∧ t.dialect = dialect := by
  unfold Tree.parse at h
  cases hroot : Grammar.parse dialect text with
  | error pos =>
      rw [hroot] at h
      cases h
  | ok root =>
      rw [hroot] at h
      cases h
      exact ⟨rfl, rfl⟩

namespace TreeCache

/-- A tree that is kept for a text has its digest and its dialect. -/
theorem of_kept? (h : c.kept? dialect path text = some t) :
    c.trees.find? path = some ⟨Digest.ofText text, t⟩ ∧ t.dialect = dialect := by
  unfold kept? at h
  cases hfound : c.trees.find? path with
  | none =>
      rw [hfound] at h
      cases h
  | some e =>
      rw [hfound] at h
      dsimp only at h
      split at h
      · rename_i hcond
        obtain ⟨hdigest, hdialect⟩ := hcond
        cases h
        exact ⟨by rw [← hdigest], hdialect⟩
      · cases h

/-- A tree that was asked for is kept. -/
theorem parseAs_eq_ok (h : (c.parseAs dialect path text).1 = .ok t) :
    t.dialect = dialect ∧
      (c.parseAs dialect path text).2.trees.find? path = some ⟨Digest.ofText text, t⟩ := by
  unfold parseAs at h ⊢
  cases hkept : c.kept? dialect path text with
  | some kept =>
      rw [hkept] at h
      cases h
      obtain ⟨hfound, hdialect⟩ := of_kept? hkept
      exact ⟨hdialect, hfound⟩
  | none =>
      rw [hkept] at h
      cases hparse : Tree.parse dialect (some path) text with
      | error e =>
          rw [hparse] at h
          cases h
      | ok u =>
          rw [hparse] at h
          cases h
          exact ⟨(Tree.of_parse hparse).2, (c.trees.find?_insert ..).trans (if_pos rfl)⟩

/-- A kept tree is given again for its text. -/
theorem parseAs_kept (h : c.trees.find? path = some ⟨Digest.ofText text, t⟩) :
    (c.parseAs t.dialect path text).1 = .ok t := by
  have hkept : c.kept? t.dialect path text = some t := by
    rw [kept?, h]
    exact if_pos ⟨rfl, rfl⟩
  rw [parseAs, hkept]

/-- A text with another digest is parsed. -/
theorem parseAs_anew {digest : UInt64} {u : Tree}
    (h : c.trees.find? path = some ⟨digest, u⟩) (hne : digest ≠ Digest.ofText text) :
    (c.parseAs dialect path text).1 = Tree.parse dialect (some path) text := by
  have hkept : c.kept? dialect path text = none := by
    rw [kept?, h]
    exact if_neg fun hsame => hne hsame.1
  rw [parseAs, hkept]
  cases Tree.parse dialect (some path) text <;> rfl

/-- A text that is asked for again comes to the same. -/
theorem parseAs_again (c : TreeCache) (dialect : Dialect) (path text : String) :
    ((c.parseAs dialect path text).2.parseAs dialect path text).1
      = (c.parseAs dialect path text).1 := by
  cases h : (c.parseAs dialect path text).1 with
  | ok t =>
      obtain ⟨rfl, hkept⟩ := parseAs_eq_ok h
      exact parseAs_kept hkept
  | error e =>
      -- A failure comes from the parser, and the path has no tree behind it.
      unfold parseAs at h
      cases hkept : c.kept? dialect path text with
      | some t =>
          rw [hkept] at h
          cases h
      | none =>
          cases hparse : Tree.parse dialect (some path) text with
          | ok t =>
              rw [hkept, hparse] at h
              cases h
          | error e' =>
              rw [hkept, hparse] at h
              have hdropped : (c.parseAs dialect path text).2
                  = ⟨c.trees.erase path, c.failures.insert path e'⟩ := by
                rw [parseAs, hkept, hparse]
              have hnone : (⟨c.trees.erase path, c.failures.insert path e'⟩ : TreeCache).kept?
                  dialect path text = none := by
                rw [kept?, Table.find?_erase, if_pos rfl]
              rw [hdropped, parseAs, hnone, hparse]
              exact h

end TreeCache

/-! ### Events -/

/-- What may change a cache. -/
inductive CacheEvent where
  /-- A text is asked for. -/
  | asked (dialect : Dialect) (path text : String)
  /-- A path is dropped. -/
  | dropped (path : String)
  /-- All paths are dropped. -/
  | cleared

/-- The cache behind an event. -/
def TreeCache.react (c : TreeCache) : CacheEvent → TreeCache
  | .asked dialect path text => (c.parseAs dialect path text).2
  | .dropped path => c.invalidate path
  | .cleared => .empty

/-- What is known of a path behind an event, given what was known
before. -/
def CacheEvent.update (path : String) (known : Option (Except SyntaxError Tree)) :
    CacheEvent → Option (Except SyntaxError Tree)
  | asked dialect p text => if p = path then some (Tree.parse dialect (some path) text) else known
  | dropped p => if p = path then none else known
  | cleared => none

/-- What the parser makes of the last text that was asked for at a path,
unless the path was dropped since. -/
def lastParse? (path : String) (events : List CacheEvent) : Option (Except SyntaxError Tree) :=
  events.foldl (CacheEvent.update path) none

/-- The path and the text that are asked for. -/
def CacheEvent.request? : CacheEvent → Option (String × String)
  | asked _ path text => some (path, text)
  | _ => none

/-- No two texts that were asked for at one path share a digest. -/
def Tells (events : List CacheEvent) : Prop :=
  ∀ r ∈ events.filterMap CacheEvent.request?, ∀ r' ∈ events.filterMap CacheEvent.request?,
    r.1 = r'.1 → Digest.ofText r.2 = Digest.ofText r'.2 → r.2 = r'.2

instance (events : List CacheEvent) : Decidable (Tells events) :=
  inferInstanceAs (Decidable (∀ r ∈ events.filterMap CacheEvent.request?,
    ∀ r' ∈ events.filterMap CacheEvent.request?, r.1 = r'.1 →
      Digest.ofText r.2 = Digest.ofText r'.2 → r.2 = r'.2))

variable {events more : List CacheEvent}

/-- What is told apart among many texts is told apart among some. -/
theorem Tells.mono (h : Tells more) (hsub : ∀ e ∈ events, e ∈ more) : Tells events := by
  have hrequests : ∀ r ∈ events.filterMap CacheEvent.request?,
      r ∈ more.filterMap CacheEvent.request? := by
    intro r hr
    obtain ⟨e, he, her⟩ := List.mem_filterMap.mp hr
    exact List.mem_filterMap.mpr ⟨e, hsub e he, her⟩
  exact fun r hr r' hr' => h r (hrequests r hr) r' (hrequests r' hr')

/-- One more event. -/
theorem lastParse?_concat (path : String) (events : List CacheEvent) (e : CacheEvent) :
    lastParse? path (events ++ [e]) = e.update path (lastParse? path events) :=
  List.foldl_concat ..

/-- What is known of a path was asked for there. -/
theorem exists_asked_of_lastParse? {known : Except SyntaxError Tree}
    (h : lastParse? path events = some known) :
    ∃ dialect text, .asked dialect path text ∈ events ∧
      Tree.parse dialect (some path) text = known := by
  induction events using List.reverseRecOn with
  | nil => cases h
  | append_singleton events e ih =>
      rw [lastParse?_concat] at h
      -- What was known before is known from an earlier event, which is still there.
      have hbefore (h : lastParse? path events = some known) :
          ∃ dialect text, .asked dialect path text ∈ events ++ [e] ∧
            Tree.parse dialect (some path) text = known := by
        obtain ⟨dialect, text, hmem, hparse⟩ := ih h
        exact ⟨dialect, text, List.mem_append_left _ hmem, hparse⟩
      cases e with
      | asked dialect p text =>
          rw [CacheEvent.update] at h
          split at h
          · rename_i hp
            subst hp
            exact ⟨dialect, text, by simp, Option.some.inj h⟩
          · exact hbefore h
      | dropped p =>
          rw [CacheEvent.update] at h
          split at h
          · cases h
          · exact hbefore h
      | cleared => cases h

/-! ### What a cache holds -/

/-- The cache holds what is known behind the events, and nothing else. -/
structure Reflects (c : TreeCache) (events : List CacheEvent) : Prop where
  /-- Trees are kept under the digests of their texts. -/
  trees : ∀ path, c.trees.find? path = match lastParse? path events with
    | some (.ok t) => some ⟨Digest.ofText t.source, t⟩
    | _ => none
  /-- Errors are kept. -/
  failures : ∀ path, c.failures.find? path = match lastParse? path events with
    | some (.error e) => some e
    | _ => none

/-- An empty cache holds nothing. -/
theorem reflects_empty : Reflects .empty [] := ⟨fun _ => rfl, fun _ => rfl⟩

namespace Reflects

variable (h : Reflects c events)

include h

/-- A tree that is kept for a text is the one that the parser reads. -/
theorem parse_of_kept? (htells : Tells (events ++ [.asked dialect path text]))
    (hkept : c.kept? dialect path text = some t) :
    Tree.parse dialect (some path) text = .ok t ∧ lastParse? path events = some (.ok t) := by
  obtain ⟨hfound, hdialect⟩ := TreeCache.of_kept? hkept
  rw [h.trees] at hfound
  split at hfound
  · rename_i u hlast
    obtain ⟨hdigest, rfl⟩ : Digest.ofText u.source = Digest.ofText text ∧ u = t := by
      simpa using hfound
    obtain ⟨dialect', text', hmem, hparse⟩ := exists_asked_of_lastParse? hlast
    obtain ⟨hsource, hdialect'⟩ := Tree.of_parse hparse
    have htext : text' = text := htells (path, text')
      (List.mem_filterMap.mpr ⟨_, List.mem_append_left _ hmem, rfl⟩) (path, text)
      (List.mem_filterMap.mpr ⟨_, List.mem_append_right _ (List.mem_singleton_self _), rfl⟩) rfl
      (by rw [← hsource, hdigest])
    rw [← htext, ← hdialect, hdialect']
    exact ⟨hparse, hlast⟩
  · cases hfound

/-- **A text that is asked for is answered as by the parser.** -/
theorem parseAs_fst (htells : Tells (events ++ [.asked dialect path text])) :
    (c.parseAs dialect path text).1 = Tree.parse dialect (some path) text := by
  unfold TreeCache.parseAs
  cases hkept : c.kept? dialect path text with
  | some t => exact (h.parse_of_kept? htells hkept).1.symm
  | none => cases Tree.parse dialect (some path) text <;> rfl

/-- An event that tells what is known of one path is reflected by a cache that
holds this, and is as before at the other paths. -/
theorem told {e : CacheEvent} {c' : TreeCache} {p : String}
    {known : Option (Except SyntaxError Tree)}
    (hlast : ∀ path, lastParse? path (events ++ [e])
      = if path = p then known else lastParse? path events)
    (htrees : ∀ path, c'.trees.find? path = if path = p
      then (known.bind Except.toOption).map fun t => ⟨Digest.ofText t.source, t⟩
      else c.trees.find? path)
    (hfailures : ∀ path, c'.failures.find? path = if path = p
      then known.bind fun | .error e => some e | .ok _ => none
      else c.failures.find? path) : Reflects c' (events ++ [e]) := by
  refine ⟨fun path => ?_, fun path => ?_⟩
  · rw [htrees, hlast, h.trees]
    split
    · rcases known with _ | _ | _ <;> rfl
    · rfl
  · rw [hfailures, hlast, h.failures]
    split
    · rcases known with _ | _ | _ <;> rfl
    · rfl

/-- A cache behind an event holds what is known then. -/
theorem react {e : CacheEvent} (htells : Tells (events ++ [e])) :
    Reflects (c.react e) (events ++ [e]) := by
  cases e with
  | cleared => exact ⟨fun path => by rw [lastParse?_concat]; rfl,
      fun path => by rw [lastParse?_concat]; rfl⟩
  | dropped p =>
      have hlast (path : String) : lastParse? path (events ++ [.dropped p])
          = if path = p then none else lastParse? path events := by
        rw [lastParse?_concat, CacheEvent.update]
        simp only [eq_comm]
      exact h.told hlast (c.trees.find?_erase p) (c.failures.find?_erase p)
  | asked dialect p text =>
      rw [TreeCache.react]
      unfold TreeCache.parseAs
      have hlast (path : String) : lastParse? path (events ++ [.asked dialect p text])
          = if path = p then some (Tree.parse dialect (some p) text)
            else lastParse? path events := by
        rw [lastParse?_concat, CacheEvent.update]
        split
        · rename_i hp
          rw [if_pos hp.symm, hp]
        · rename_i hp
          rw [if_neg (Ne.symm hp)]
      cases hkept : c.kept? dialect p text with
      | some t =>
          -- The tree is known already, and nothing changes.
          obtain ⟨hparse, hknown⟩ := h.parse_of_kept? htells hkept
          rw [hparse] at hlast
          dsimp only
          refine h.told hlast (fun path => ?_) (fun path => ?_)
          · by_cases hp : path = p
            · rw [if_pos hp, hp, h.trees, hknown]
              rfl
            · rw [if_neg hp]
          · by_cases hp : path = p
            · rw [if_pos hp, hp, h.failures, hknown]
              rfl
            · rw [if_neg hp]
      | none =>
          cases hparse : Tree.parse dialect (some p) text with
          | ok t =>
              obtain ⟨rfl, -⟩ := Tree.of_parse hparse
              rw [hparse] at hlast
              exact h.told hlast (c.trees.find?_insert p · _) (c.failures.find?_erase p)
          | error e =>
              rw [hparse] at hlast
              exact h.told hlast (c.trees.find?_erase p) (c.failures.find?_insert p · _)

/-- A cache behind several events holds what is known then. -/
theorem react_all (htells : Tells (events ++ more)) :
    Reflects (more.foldl TreeCache.react c) (events ++ more) := by
  induction more generalizing c events with
  | nil => rwa [List.append_nil]
  | cons e more ih =>
      rw [List.append_cons] at htells ⊢
      exact ih (h.react (htells.mono fun e' he' => List.mem_append_left _ he')) htells

/-- The failures are the paths whose last text could not be parsed. -/
theorem failed_iff (path : String) :
    path ∈ c.failed ↔ ∃ e, lastParse? path events = some (.error e) := by
  rw [TreeCache.failed, Table.mem_keys_iff_find?, h.failures]
  refine exists_congr fun e => ?_
  split
  · rename_i e' hlast
    rw [hlast]
    simp
  · rename_i hother
    simp only [reduceCtorEq, false_iff]
    exact hother e

/-- The paths with a tree are those whose last text was parsed. -/
theorem contains_iff (path : String) :
    c.contains path = true ↔ ∃ t, lastParse? path events = some (.ok t) := by
  rw [TreeCache.contains, Table.contains_eq_isSome, h.trees]
  split
  · rename_i t hlast
    rw [hlast]
    simp
  · rename_i hother
    simp only [Option.isSome_none, Bool.false_eq_true, false_iff, not_exists]
    exact hother

end Reflects

/-! ### Calls -/

/-- A call on a cache. -/
inductive CacheCall where
  /-- A tree is asked for in the dialect that its path tells. -/
  | parse (path text : String)
  /-- A tree is asked for in a dialect. -/
  | parseAs (dialect : Dialect) (path text : String)
  /-- The modules among some files are looked for. -/
  | discover (files : List (String × String))
  /-- A path is dropped. -/
  | invalidate (path : String)
  /-- All paths are dropped. -/
  | clear

/-- What is asked for of a file: nothing, if its path tells no dialect. -/
def asksFor (file : String × String) : List CacheEvent :=
  (Dialect.ofPath? file.1).toList.map (CacheEvent.asked · file.1 file.2)

/-- What a call does to a cache. -/
def CacheCall.effects : CacheCall → List CacheEvent
  | parse path text => asksFor (path, text)
  | parseAs dialect path text => [.asked dialect path text]
  | discover files => files.flatMap asksFor
  | invalidate path => [.dropped path]
  | clear => [.cleared]

/-- What the parser makes of a file in the dialect that its path tells. -/
def parseFile (file : String × String) : Except SyntaxError Tree :=
  match Dialect.ofPath? file.1 with
  | some dialect => Tree.parse dialect (some file.1) file.2
  | none => .error (.unsupported file.1)

namespace TreeCache

/-- The cache behind a call. -/
def apply (c : TreeCache) : CacheCall → TreeCache
  | .parse path text => (c.parse path text).2
  | .parseAs dialect path text => (c.parseAs dialect path text).2
  | .discover files => (Discovery.ofFiles c files).cache
  | .invalidate path => c.invalidate path
  | .clear => .empty

/-- The cache behind some calls. -/
def run (c : TreeCache) (calls : List CacheCall) : TreeCache := calls.foldl apply c

/-- A file that is asked for. -/
theorem parse_snd (c : TreeCache) (file : String × String) :
    (c.parse file.1 file.2).2 = (asksFor file).foldl react c := by
  rw [parse, asksFor]
  cases Dialect.ofPath? file.1 <;> rfl

end TreeCache

/-- The trees behind one more file are those behind its being asked for. -/
theorem discovery_cache_step (s : Discovery) (file : String × String) :
    (s.step file).cache = (asksFor file).foldl TreeCache.react s.cache := by
  rw [← TreeCache.parse_snd, Discovery.step]
  generalize s.cache.parse file.1 file.2 = r
  obtain ⟨e | t, c⟩ := r <;> rfl

/-- The trees behind a search are those behind the files being asked for. -/
theorem discovery_cache_foldl (s : Discovery) (files : List (String × String)) :
    (files.foldl Discovery.step s).cache
      = (files.flatMap asksFor).foldl TreeCache.react s.cache := by
  induction files generalizing s with
  | nil => rfl
  | cons file files ih =>
      rw [List.foldl_cons, ih, discovery_cache_step, List.flatMap_cons, List.foldl_append]

/-- A call does to a cache what its effects do. -/
theorem TreeCache.apply_eq (c : TreeCache) (call : CacheCall) :
    c.apply call = call.effects.foldl react c := by
  cases call with
  | parse path text => exact c.parse_snd (path, text)
  | discover files => exact discovery_cache_foldl ⟨[], [], c⟩ files
  | parseAs | invalidate | clear => rfl

/-- Several calls do what their effects do. -/
theorem TreeCache.run_eq (c : TreeCache) (calls : List CacheCall) :
    c.run calls = (calls.flatMap CacheCall.effects).foldl react c := by
  induction calls generalizing c with
  | nil => rfl
  | cons call calls ih =>
      rw [run, List.foldl_cons, ← run, ih, apply_eq, List.flatMap_cons, List.foldl_append]

/-- A file that is asked for is answered as by the parser. -/
theorem Reflects.parse_fst (h : Reflects c events) {file : String × String}
    (htells : Tells (events ++ asksFor file)) :
    (c.parse file.1 file.2).1 = parseFile file := by
  rw [asksFor] at htells
  rw [TreeCache.parse, parseFile]
  cases hdialect : Dialect.ofPath? file.1 with
  | none => rfl
  | some dialect =>
      rw [hdialect] at htells
      exact h.parseAs_fst htells

/-- What a search tells follows from what the parser makes of each file. -/
theorem discovery_foldl_congr {c' : TreeCache} {events' : List CacheEvent}
    (h : Reflects c events) (h' : Reflects c' events') {files : List (String × String)}
    (htells : Tells (events ++ files.flatMap asksFor))
    (htells' : Tells (events' ++ files.flatMap asksFor)) (modules : List FoundModule)
    (notices : List Notice) :
    (files.foldl Discovery.step ⟨modules, notices, c⟩).modules
        = (files.foldl Discovery.step ⟨modules, notices, c'⟩).modules ∧
      (files.foldl Discovery.step ⟨modules, notices, c⟩).notices
        = (files.foldl Discovery.step ⟨modules, notices, c'⟩).notices := by
  induction files generalizing c c' events events' modules notices with
  | nil => exact ⟨rfl, rfl⟩
  | cons file files ih =>
      rw [List.flatMap_cons, ← List.append_assoc] at htells htells'
      have hfront := htells.mono fun e he => List.mem_append_left _ he
      have hfront' := htells'.mono fun e he => List.mem_append_left _ he
      have hnext := h.react_all hfront
      have hnext' := h'.react_all hfront'
      rw [← TreeCache.parse_snd] at hnext hnext'
      have hparse := h.parse_fst hfront
      have hparse' := h'.parse_fst hfront'
      -- Both steps depend on the cache through the result for the file, and that is the same.
      rw [List.foldl_cons, List.foldl_cons, Discovery.step, Discovery.step]
      dsimp only
      generalize c.parse file.1 file.2 = r at hnext hparse ⊢
      generalize c'.parse file.1 file.2 = r' at hnext' hparse' ⊢
      obtain ⟨result, c⟩ := r
      obtain ⟨result', c'⟩ := r'
      obtain rfl : result = parseFile file := hparse
      obtain rfl : result' = parseFile file := hparse'
      cases parseFile file <;> exact ih hnext hnext' htells htells' _ _

/-- A search tells the same whatever is kept. -/
theorem Reflects.discovery_eq (h : Reflects c events) {files : List (String × String)}
    (htells : Tells (events ++ files.flatMap asksFor)) :
    (Discovery.ofFiles c files).modules = (Discovery.ofFiles .empty files).modules ∧
      (Discovery.ofFiles c files).notices = (Discovery.ofFiles .empty files).notices := by
  obtain ⟨hmodules, hnotices⟩ := discovery_foldl_congr h reflects_empty htells
    (htells.mono fun e he => List.mem_append_right _ he) [] []
  refine ⟨?_, hnotices⟩
  rw [Discovery.ofFiles, Discovery.ofFiles]
  exact congrArg (List.mergeSort · _) hmodules

/-- The failures of a cache stay in order. -/
theorem isAscending_failures_react (h : c.failures.IsAscending) (e : CacheEvent) :
    (c.react e).failures.IsAscending := by
  cases e with
  | cleared => exact Table.isAscending_empty
  | dropped path => exact h.filterKeys _
  | asked dialect path text =>
      rw [TreeCache.react]
      unfold TreeCache.parseAs
      cases c.kept? dialect path text with
      | some t => exact h
      | none =>
          cases Tree.parse dialect (some path) text with
          | ok t => exact h.filterKeys _
          | error e => exact h.insert path e

/-- The failures are in order behind several events. -/
theorem isAscending_failures_foldl (h : c.failures.IsAscending) (events : List CacheEvent) :
    (events.foldl TreeCache.react c).failures.IsAscending := by
  induction events generalizing c with
  | nil => exact h
  | cons e events ih => exact ih (isAscending_failures_react h e)

/-- What a cache is to answer behind some events, if no two texts of one path
share a digest. -/
structure TreeCache.Answers (c : TreeCache) (events : List CacheEvent) : Prop where
  /-- A tree that is asked for is the one that the parser reads. -/
  trees : ∀ dialect path text, Tells (events ++ [.asked dialect path text]) →
    (c.parseAs dialect path text).1 = Tree.parse dialect (some path) text
  /-- So it is in the dialect that the path of a file tells. -/
  files : ∀ file : String × String, Tells (events ++ asksFor file) →
    (c.parse file.1 file.2).1 = parseFile file
  /-- A search for modules tells what it tells without the cache. -/
  searches : ∀ files, Tells (events ++ files.flatMap asksFor) →
    (Discovery.ofFiles c files).modules = (Discovery.ofFiles .empty files).modules ∧
      (Discovery.ofFiles c files).notices = (Discovery.ofFiles .empty files).notices
  /-- No path is both kept and among the failures. -/
  apart : Tells events → ∀ path, c.contains path = true → path ∉ c.failed
  /-- The failures are the paths whose last text could not be parsed, unless
  they were dropped since. -/
  failed : Tells events → ∀ path,
    path ∈ c.failed ↔ ∃ e, lastParse? path events = some (.error e)
  /-- They are listed in order. -/
  inOrder : c.failed.Pairwise (· < ·)

/-- Behind any calls, a cache answers as it is to. -/
theorem TreeCache.answers_run (calls : List CacheCall) :
    (TreeCache.empty.run calls).Answers (calls.flatMap CacheCall.effects) := by
  rw [TreeCache.run_eq]
  generalize calls.flatMap CacheCall.effects = events
  have hreflects : ∀ more, Tells (events ++ more) →
      Reflects (events.foldl react .empty) events := fun more htells =>
    reflects_empty.react_all (htells.mono fun e he => List.mem_append_left _ he)
  have hself (htells : Tells events) : Reflects (events.foldl react .empty) events :=
    hreflects [] (by rwa [List.append_nil])
  exact
    { trees := fun dialect path text htells => (hreflects _ htells).parseAs_fst htells
      files := fun file htells => (hreflects _ htells).parse_fst htells
      searches := fun files htells => (hreflects _ htells).discovery_eq htells
      apart := fun htells path hkept hfailed => by
        obtain ⟨t, ht⟩ := ((hself htells).contains_iff path).mp hkept
        obtain ⟨e, he⟩ := ((hself htells).failed_iff path).mp hfailed
        rw [ht] at he
        cases he
      failed := fun htells path => (hself htells).failed_iff path
      inOrder := isAscending_failures_foldl Table.isAscending_empty events }

end ScriptRefactor.Syntax
