import ScriptRefactor.Proofs.Edit.Conflicts
import ScriptRefactor.Proofs.Edit.Moved
import ScriptRefactor.Proofs.Path.ModuleSources
import ScriptRefactor.Proofs.Path.Prefixes
import ScriptRefactor.Proofs.Scope.Nesting
import ScriptRefactor.Proofs.Session.ParsableModules
import ScriptRefactor.Proofs.Text.Floor
import ScriptRefactor.Proofs.Text.Utf8
import ScriptRefactor.Proofs.Workspace.DeletionView
import ScriptRefactor.Proofs.Workspace.FileMoveView
import ScriptRefactor.Proofs.Workspace.FlushDirs
import ScriptRefactor.Proofs.Workspace.FlushStaged
import ScriptRefactor.Proofs.Workspace.MoveClashes
import ScriptRefactor.Proofs.Workspace.SavedFiles
import ScriptRefactor.Proofs.Workspace.StagedView
import ScriptRefactor.Refactoring.EntryLines
import ScriptRefactor.Regular.Written
import ScriptRefactor.Proofs.Edit.Clamped
import ScriptRefactor.Proofs.Edit.LineBreaks
import ScriptRefactor.Proofs.Edit.Guarded
import ScriptRefactor.Proofs.Edit.Ascending
import ScriptRefactor.Proofs.Refactoring.Additions
import ScriptRefactor.Proofs.Refactoring.NewStatements
import ScriptRefactor.Proofs.Refactoring.RemovedEntries
import ScriptRefactor.Proofs.Refactoring.ImportRoundTrip
import ScriptRefactor.Proofs.Refactoring.GrownLists
import ScriptRefactor.Proofs.Refactoring.RemovedRuns
import ScriptRefactor.Proofs.Refactoring.StringContents
import ScriptRefactor.Proofs.Refactoring.CommentedNames
import ScriptRefactor.Proofs.Path.Joins
import ScriptRefactor.Proofs.LineDiff.Appended
import ScriptRefactor.Proofs.LineDiff.ReportedLines
import ScriptRefactor.Proofs.Session.ReportedChanges
import ScriptRefactor.Proofs.Refactoring.EntryLines
import ScriptRefactor.Proofs.Syntax.Walks
import ScriptRefactor.Proofs.Workspace.FoldedTexts
import ScriptRefactor.Proofs.Module.ImportOrder
