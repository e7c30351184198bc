import CodeAtlas.Source.File

/-!
One task on every file, run by several workers.

Workers finish the tasks in any order. A result is kept under the number of its file as soon as it
is there, and in the end the results are taken in the order of the files.
-/

namespace CodeAtlas

structure Pool where
  workers : Int
  finished : List Nat
  deriving Repr

namespace Pool

variable {α : Type}

def keep (task : SourceFile → α) (files : List SourceFile) (results : List (Nat × α)) (i : Nat) :
    List (Nat × α) :=
  match files[i]? with
  | some file => (i, task file) :: results
  | none => results

def gather (files : List SourceFile) (results : List (Nat × α)) : List α :=
  (List.range files.length).filterMap fun i => results.lookup i

def mapFiles (pool : Pool) (task : SourceFile → α) (files : List SourceFile) : List α :=
  if pool.workers ≤ 1 || files.length ≤ 1 then files.map task
  else gather files (pool.finished.foldl (keep task files) [])

end Pool

end CodeAtlas
