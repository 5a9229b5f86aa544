import PlanSearch.Variable

/-!
# Tasks

Every task gets a priority and a worker, and a point if the two are equal.
-/

namespace PlanSearch.Tasks

structure Task where
  priority : Option Int64 := none
  worker : Option Int64 := none
  isPinned : Bool := false
  deriving DecidableEq, Repr, Inhabited

structure Schedule where
  tasks : List Task
  score : Option (Score .simple) := none
  deriving DecidableEq

namespace Schedule

/-- The family of the tasks. -/
def family : Nat := 0

/-- Changes a task, if there is one at `i`. -/
def modify (s : Schedule) (i : Nat) (f : Task → Task) : Schedule :=
  { s with tasks := s.tasks.modify i f }

end Schedule

instance : Plan Schedule .simple where
  score := Schedule.score
  setScore score s := { s with score }
  entityCount s family := if family = Schedule.family then s.tasks.length else 0
  isPinned s f := s.tasks[f.index]?.any Task.isPinned

def priority : Variable Schedule Int64 where
  family := Schedule.family
  name := "priority"
  get s i := s.tasks[i]?.bind Task.priority
  set s i v := s.modify i fun t => { t with priority := v }

def worker : Variable Schedule Int64 where
  family := Schedule.family
  name := "worker"
  get s i := s.tasks[i]?.bind Task.worker
  set s i v := s.modify i fun t => { t with worker := v }

/-- Both variables with the values that they may take. -/
def definitions (priorities workers : List Int64) : List (Definition Schedule Int64) :=
  [{ entityClass := "Task", cell := priority, range := .listed priorities },
   { entityClass := "Task", cell := worker, range := .listed workers }]

/-- A point for every task whose worker is its priority. -/
def matchScore (s : Schedule) : Checked (Score .simple) := do
  let n := s.tasks.countP fun t => t.priority.isSome && t.priority == t.worker
  return .single 0 (← Checked.fit n)

end PlanSearch.Tasks
