import FlowTyping.Forest

/-!
# Ancestry

The path of a scope leads from the scope itself outwards to its root.
-/
namespace FlowTyping.Forest

/-- A scope and the scopes around it, innermost first. -/
def ancestors (forest : Forest) (id : ScopeId) : Except Fault (List ScopeId) := do
  return id :: (← forest.scope id).outer

theorem ancestors_eq_ok_iff {forest : Forest} {id : ScopeId} {path : List ScopeId} :
    forest.ancestors id = .ok path ↔
      ∃ scope, forest.scope id = .ok scope ∧ path = id :: scope.outer := by
  cases known : forest.scope id <;>
    simp [ancestors, known, bind, Except.bind, pure, Except.pure, eq_comm]

/-- The first place at which two paths of one length agree. -/
def meeting : List ScopeId → List ScopeId → Option ScopeId
  | a :: as, b :: bs => if a = b then some a else meeting as bs
  | _, _ => none

/-- Two paths meet on both of them. -/
theorem mem_of_meeting {as bs : List ScopeId} {id : ScopeId} (h : meeting as bs = some id) :
    id ∈ as ∧ id ∈ bs := by
  fun_induction meeting as bs with
  | case1 => simp_all
  | case2 a as b bs _ ih =>
    exact ⟨List.mem_cons_of_mem a (ih h).1, List.mem_cons_of_mem b (ih h).2⟩
  | case3 => cases h

/-- The innermost scope on the paths of both scopes; none if they hang from different roots. The
longer path is cut to the length of the other, and both are followed in step. -/
def commonAncestor (forest : Forest) (a b : ScopeId) : Except Fault (Option ScopeId) := do
  let as ← forest.ancestors a
  let bs ← forest.ancestors b
  return meeting (as.drop (as.length - bs.length)) (bs.drop (bs.length - as.length))

/-- The first scope of a path that has a property. -/
def nearestOn (forest : Forest) (has : Scope → Bool) :
    List ScopeId → Except Fault (Option ScopeId)
  | [] => .ok none
  | id :: path => do
    if has (← forest.scope id) then return some id
    forest.nearestOn has path

/-- The innermost scope with a property, from a scope outwards. -/
def nearest (forest : Forest) (has : Scope → Bool) (id : ScopeId) :
    Except Fault (Option ScopeId) := do
  forest.nearestOn has (← forest.ancestors id)

/-- The names declared along the path of a scope, innermost scope first. A name that is declared
again further in comes once for each declaration. -/
def visibleNames (forest : Forest) (id : ScopeId) : Except Fault (List Name) := do
  return (← (← forest.ancestors id).mapM forest.namesOf).flatten

end FlowTyping.Forest
