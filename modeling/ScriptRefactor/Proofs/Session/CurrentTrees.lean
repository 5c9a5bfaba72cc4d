import ScriptRefactor.Proofs.Session.Updates
import ScriptRefactor.Proofs.Syntax.TreeCache
import ScriptRefactor.Proofs.Workspace.Keys

/-!
# `ScriptRefactor.Proofs.Session.CurrentTrees`: the trees of a session are up to date

A session keeps trees while texts are staged, files are moved and deleted,
modules are edited, and the disk changes under it. None of this drops a
tree, except that a changed file may be forgotten. A tree is found by the
digest of its text all the same, so the tree of a path is the one that the
parser reads in the present text (`trees_as_parsed`).

The text is that of the key of the key. Where a path does not keep its key,
this is another file, and the tree is not the one of the text at the path
(`tree_onDetour_misses_content`).
-/

set_option autoImplicit false

namespace ScriptRefactor

open Syntax

/-! ### Runs of sessions -/

/-- A call of a session, or a change of the disk by others. -/
inductive SessionCall where
  /-- Something staged or read in the workspace. -/
  | stage (c : Call)
  /-- All staged changes dropped. -/
  | reset
  /-- The staged changes written to disk. -/
  | flush
  /-- The tree of a module. -/
  | tree (path : String)
  /-- A module changed by a refactoring. -/
  | update (path : String) (refactoring : Tree → Changes)
  /-- A file changed by edits. -/
  | apply (path : String) (edits : List Edit)
  /-- A file changed line by line. -/
  | updateLines (path : String) (change : List String → List String)
  /-- What was read of a changed file dropped. -/
  | forget (path : String)
  /-- The disk as others leave it. -/
  | disk (d : Disk)

namespace SessionCall

/-- A session and a disk behind a call. -/
def perform (x : Session × Disk) : SessionCall → Session × Disk
  | stage c => ({ x.1 with workspace := x.1.workspace.apply x.2 c }, x.2)
  | reset => ({ x.1 with workspace := x.1.workspace.reset }, x.2)
  | flush =>
    let flushed := x.1.workspace.flush x.2
    ({ x.1 with workspace := flushed.workspace }, flushed.disk)
  | tree path => ((x.1.tree x.2 path).2, x.2)
  | update path refactoring => ((x.1.update x.2 path refactoring).session, x.2)
  | apply path edits => ((x.1.apply x.2 path edits).session, x.2)
  | updateLines path change => ((x.1.updateLines x.2 path change).session, x.2)
  | forget path => (x.1.forget path, x.2)
  | disk d => (x.1, d)

/-- A session and a disk behind some calls. -/
def run (x : Session × Disk) (calls : List SessionCall) : Session × Disk := calls.foldl perform x

/-- What the cache is asked for to get the tree of a module. -/
def treeAsks (x : Session × Disk) (path : String) : List CacheEvent :=
  let key := x.1.workspace.key path
  match Dialect.ofPath? key, (x.1.workspace.content x.2 key).1 with
  | some dialect, .ok text => [.asked dialect key text]
  | _, _ => []

/-- What a call does to the cache. -/
def effects (x : Session × Disk) : SessionCall → List CacheEvent
  | tree path | update path _ => treeAsks x path
  | forget path => [.dropped (x.1.workspace.key path)]
  | _ => []

/-- What some calls do to the cache. -/
def runEffects (x : Session × Disk) : List SessionCall → List CacheEvent
  | [] => []
  | c :: calls => c.effects x ++ runEffects (c.perform x) calls

end SessionCall

namespace Session

open SessionCall (treeAsks runEffects)

variable {s : Session} {d : Disk} {path : String} {events : List CacheEvent}

/-- The tree that the parser reads in a text that was found under a key. -/
def readAs (key : String) (text? : Except WorkspaceError String) : Except SessionError Tree :=
  match Dialect.ofPath? key with
  | none => .error (.unsupportedFile key)
  | some dialect =>
    match text? with
    | .error e => .error (.files e)
    | .ok text => (Tree.parse dialect (some key) text).mapError .code

/-- A text is read without a tree. -/
theorem cache_content (s : Session) (d : Disk) (path : String) :
    (s.content d path).2.cache = s.cache := rfl

/-- A file is written without a tree. -/
theorem cache_write (s : Session) (path old : String) (changes : Changes) :
    (s.write path old changes).session.cache = s.cache := by
  unfold write
  split <;> rfl

/-- A tree is asked for of the cache. -/
theorem cache_tree (s : Session) (d : Disk) (path : String) :
    (s.tree d path).2.cache = (treeAsks (s, d) path).foldl TreeCache.react s.cache := by
  unfold tree treeAsks
  dsimp only
  cases Dialect.ofPath? (s.workspace.key path) with
  | none => rfl
  | some dialect =>
      dsimp only
      rw [content]
      generalize s.workspace.content d (s.workspace.key path) = r
      obtain ⟨e | text, w⟩ := r <;> rfl

/-- To change a module, its tree is asked for. -/
theorem cache_update (s : Session) (d : Disk) (path : String) (refactoring : Tree → Changes) :
    (s.update d path refactoring).session.cache
      = (treeAsks (s, d) path).foldl TreeCache.react s.cache := by
  have htree := s.cache_tree d path
  unfold Session.update
  generalize s.tree d path = r at htree ⊢
  obtain ⟨e | t, s'⟩ := r
  · exact htree
  · refine Eq.trans ?_ htree
    exact s'.cache_write path t.source (refactoring t)

/-- A call does to the cache what its effects do. -/
theorem cache_perform (x : Session × Disk) (c : SessionCall) :
    (c.perform x).1.cache = (c.effects x).foldl TreeCache.react x.1.cache := by
  obtain ⟨s, d⟩ := x
  cases c with
  | tree path => exact s.cache_tree d path
  | update path refactoring => exact s.cache_update d path refactoring
  | apply path edits =>
      show (Session.apply s d path edits).session.cache = s.cache
      rw [Session.apply, ← s.cache_content d path]
      generalize s.content d path = r
      obtain ⟨e | text, s'⟩ := r
      · rfl
      · exact s'.cache_write path text _
  | updateLines path change =>
      show (Session.updateLines s d path change).session.cache = s.cache
      rw [Session.updateLines, ← s.cache_content d (s.workspace.key path)]
      generalize s.content d (s.workspace.key path) = r
      obtain ⟨e | text, s'⟩ := r
      · rfl
      · dsimp only
        split <;> rfl
  | stage | reset | flush | forget | disk => rfl

/-- Several calls do what their effects do. -/
theorem cache_run (x : Session × Disk) (calls : List SessionCall) :
    (SessionCall.run x calls).1.cache = (runEffects x calls).foldl TreeCache.react x.1.cache := by
  induction calls generalizing x with
  | nil => rfl
  | cons c calls ih =>
      rw [SessionCall.run, List.foldl_cons, ← SessionCall.run, ih, cache_perform, runEffects,
        List.foldl_append]

/-- The tree of a module is the one that the parser reads in the text under
its key. -/
theorem tree_eq_readAs (h : Reflects s.cache events)
    (htells : Tells (events ++ treeAsks (s, d) path)) :
    (s.tree d path).1
      = readAs (s.workspace.key path) (s.workspace.content d (s.workspace.key path)).1 := by
  unfold treeAsks at htells
  dsimp only at htells
  unfold tree readAs
  dsimp only
  cases hdialect : Dialect.ofPath? (s.workspace.key path) with
  | none => rfl
  | some dialect =>
      rw [hdialect] at htells
      dsimp only at htells ⊢
      rw [content]
      generalize s.workspace.content d (s.workspace.key path) = r at htells ⊢
      obtain ⟨e | text, w⟩ := r
      · rfl
      · show (s.cache.parseAs dialect _ text).1.mapError _ = _
        rw [h.parseAs_fst htells]

/-! ### Updates of references -/

/-- One session comes to another one by calls that read and change
modules. -/
def Reaches (d : Disk) (s s' : Session) : Prop :=
  ∃ calls : List SessionCall, SessionCall.run (s, d) calls = (s', d)

/-- Nothing has to be done. -/
theorem Reaches.refl (d : Disk) (s : Session) : Reaches d s s := ⟨[], rfl⟩

/-- Calls can be followed by others. -/
theorem Reaches.trans {s' s'' : Session} (h : Reaches d s s') (h' : Reaches d s' s'') :
    Reaches d s s'' := by
  obtain ⟨calls, hcalls⟩ := h
  obtain ⟨calls', hcalls'⟩ := h'
  refine ⟨calls ++ calls', ?_⟩
  rw [SessionCall.run, List.foldl_append]
  exact (congrArg (SessionCall.run · calls') hcalls).trans hcalls'

/-- References are updated by calls that read and change modules. -/
theorem reaches_updateReferences (s : Session) (d : Disk) (src dest : String) :
    Reaches d s (updateReferences s d src dest).session := by
  refine rel_updateModules (R := Reaches d) (Reaches.refl d) (fun _ _ _ => Reaches.trans)
    (fun file _ s => ?_) ⟨.ok [], s, []⟩
  exact rel_updateModule (R := Reaches d) (Reaches.refl d) (fun _ _ _ => Reaches.trans)
    (fun s f => ⟨[.update file f], rfl⟩) (fun s => ⟨[.tree file], rfl⟩)
    (fun s => ⟨[.stage (.content file)], rfl⟩) s _ _

/-! ### The trees of a run -/

/-- **Trees are up to date.** Behind any calls, a cache answers as it is to:
each tree that is asked for is the one that the parser reads, as long as no
two texts that were asked for at one path share a digest.

Behind any calls of a session and changes of the disk, the tree that the
session gives for a path is the one that the parser reads in the text under
its key, which is the text at the path if the key is its own key. An update
of references is a run of such calls, too. -/
theorem trees_as_parsed (calls : List CacheCall) (w : Workspace) (d : Disk)
    (sessionCalls : List SessionCall) :
    (TreeCache.empty.run calls).Answers (calls.flatMap CacheCall.effects) ∧
    let x := SessionCall.run (ofWorkspace w, d) sessionCalls
    (∀ path, Tells (runEffects (ofWorkspace w, d) sessionCalls ++ treeAsks x path) →
      let key := x.1.workspace.key path
      (x.1.tree x.2 path).1 = readAs key (x.1.workspace.content x.2 key).1 ∧
        (x.1.workspace.key key = key →
          (x.1.tree x.2 path).1 = readAs key (x.1.workspace.content x.2 path).1)) ∧
    ∀ src dest, Reaches x.2 x.1 (updateReferences x.1 x.2 src dest).session := by
  refine ⟨TreeCache.answers_run calls, fun path htells => ?_,
    fun src dest => reaches_updateReferences _ _ src dest⟩
  generalize hx : SessionCall.run (ofWorkspace w, d) sessionCalls = x at htells ⊢
  have hcache := cache_run (ofWorkspace w, d) sessionCalls
  rw [hx] at hcache
  have hreflects : Reflects x.1.cache (runEffects (ofWorkspace w, d) sessionCalls) :=
    hcache ▸ reflects_empty.react_all (htells.mono fun e he => List.mem_append_left _ he)
  have htree := tree_eq_readAs hreflects htells
  refine ⟨htree, fun hkey => htree.trans ?_⟩
  rw [Workspace.content, Workspace.content, hkey]

/-- A module is parsed in two dialects, and another text takes its place;
it is found in a search, and dropped. -/
def askedTwice : List CacheCall :=
  [.parseAs .plain "a.js" "a;\n", .parseAs .typed "a.js" "a;\n", .parse "a.js" "const = ;\n",
    .discover [("b.js", "b;\n"), ("a.css", "")], .invalidate "b.js", .parse "a.js" "a;\n"]

/-- A module is staged and looked at, and takes the place of another one
that was on disk; both are looked at, and one is forgotten when the disk
changes. -/
def lookedAt : List SessionCall :=
  [.stage (.save "a.js" "a;\n"), .tree "a.js", .stage (.moveFile "b.js" "c.js"), .tree "c.js",
    .stage (.moveFile "a.js" "b.js"), .tree "b.js", .disk ⟨[(["root"], .dir)]⟩, .forget "c.js"]

/-- Nothing that is asked for shares a digest. -/
theorem trees_as_parsed_lookedAt :
    let c := TreeCache.empty.run askedTwice
    let w := Workspace.ofFilter "/root" Settings.default PathFilter.showAll
    let x := SessionCall.run (ofWorkspace w, ⟨[(["root"], .dir),
      (["root", "b.js"], .file (Disk.bytesOf "b;\n"))]⟩) lookedAt
    (c.parseAs .plain "a.js" "const = ;\n").1
        = Tree.parse .plain (some "a.js") "const = ;\n" ∧
      (x.1.tree x.2 "b.js").1 = readAs "b.js" (.ok "a;\n") := by
  intro c w x
  obtain ⟨hanswers, htree, -⟩ := trees_as_parsed askedTwice w ⟨[(["root"], .dir),
    (["root", "b.js"], .file (Disk.bytesOf "b;\n"))]⟩ lookedAt
  refine ⟨hanswers.trees .plain "a.js" "const = ;\n" (by decide +kernel), ?_⟩
  refine ((htree "b.js" (by decide +kernel)).2 (by decide +kernel)).trans ?_
  have hkey : x.1.workspace.key "b.js" = "b.js" := by decide +kernel
  have htext : (x.1.workspace.content x.2 "b.js").1 = .ok "a;\n" := by decide +kernel
  rw [hkey, htext]

/-- A file is to be deleted. -/
def deletedFile : List SessionCall := [.stage (.delete "x.js" .warn)]

/-- Where a path leads into the project in normal form only, the text at the
path is that of the file on disk, and the tree is asked for of the key of
its key, which is to be deleted. -/
theorem tree_onDetour_misses_content :
    let w := Workspace.ofFilter "/root" Settings.default PathFilter.showAll
    let d : Disk := ⟨[(["root"], .dir), (["root", "x.js"], .file (Disk.bytesOf "x\n"))]⟩
    let x := SessionCall.run (ofWorkspace w, d) deletedFile
    let path := "/other/../root/x.js"
    Tells (runEffects (ofWorkspace w, d) deletedFile ++ treeAsks x path) ∧
      (x.1.workspace.content x.2 path).1 = .ok "x\n" ∧
      (x.1.tree x.2 path).1 = .error (.files (.notFound "x.js")) ∧
      (x.1.tree x.2 path).1
        ≠ readAs (x.1.workspace.key path) (x.1.workspace.content x.2 path).1 := by
  intro w d x path
  have htells : Tells (runEffects (ofWorkspace w, d) deletedFile ++ treeAsks x path) := by
    decide +kernel
  have hcontent : (x.1.workspace.content x.2 path).1 = .ok "x\n" := by decide +kernel
  have hkey : x.1.workspace.key path = "/root/x.js" := by decide +kernel
  have hmissing : (x.1.workspace.content x.2 "/root/x.js").1 = .error (.notFound "x.js") := by
    decide +kernel
  have hdialect : Dialect.ofPath? "/root/x.js" = some .plain := by decide +kernel
  have htree : (x.1.tree x.2 path).1 = .error (.files (.notFound "x.js")) := by
    have hnone : runEffects (ofWorkspace w, d) deletedFile = [] := rfl
    rw [tree_eq_readAs reflects_empty (by rwa [hnone] at htells), hkey, hmissing, readAs, hdialect]
  refine ⟨htells, hcontent, htree, ?_⟩
  rw [htree, hcontent, hkey, readAs, hdialect]
  dsimp only
  cases Tree.parse .plain (some "/root/x.js") "x\n" <;> simp [Except.mapError]

end Session

end ScriptRefactor
