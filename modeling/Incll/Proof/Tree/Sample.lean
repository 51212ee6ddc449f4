import Incll.Proof.Tree.Operations

/-! # Checkpointed trees given by their keys -/

namespace Incll.Proof.Tree
open Incll.Model

/-- A node at its address; a leaf has its keys in the first slots. -/
inductive Sample where
  | leaf (incll : Incll) (keys : List Nat) (parent prev next : Addr)
  | internode (height : Nat) (keys : List Nat) (children : List Addr) (parent : Addr)

namespace Sample

def kind : Sample → Kind
  | .leaf incll keys parent prev next => .leaf ⟨incll, { LeafBody.make 0 with
      permutation := .makeSorted keys.length
      ikey0 := (keys.getD · 0)
      keylenx := fun _ => ikeySize
      parent := parent
      prev := prev
      next := next }⟩
  | .internode height keys children parent => .internode {
      loggedepoch := 0
      nkeys := keys.length
      height := height
      ikey0 := (keys.getD · 0)
      child := (children.getD · 0)
      parent := parent }

def parent : Sample → Addr
  | .leaf _ _ parent _ _ => parent
  | .internode _ _ _ parent => parent

def node (s : Sample) : Node := ⟨{ Nodeversion.make with root := s.parent = 0 }, s.kind⟩

def old (ge : Nat) : Sample → Bool
  | .leaf incll keys _ _ _ => incll.loggedepoch < ge && !incll.lvCl1.isClValid &&
      !incll.lvCl2.isClValid && keys.length ≤ leafWidth && incll.permCl0.size ≤ leafWidth &&
      incll.permCl0.slots.isPerm (List.range leafWidth)
  | .internode _ _ _ _ => 0 < ge

/-- Node `i` of the list lies at address `i + 1`. -/
def heap (nodes : List Sample) (a : Addr) : Option Node :=
  if a = 0 then none else nodes[a - 1]?.map node

end Sample

/-- The state after a checkpoint of the tree `nodes`. -/
def sample (nodes : List Sample) (root : Addr) (globalepoch failedepoch : Nat) : St Cell :=
  let kinds (a : Addr) := (Sample.heap nodes a).map (·.kind.lazyRecovery globalepoch failedepoch)
  { heap := Sample.heap nodes
    fresh := nodes.length + 1
    root := root
    log := (PExtNodeLogger.init fun _ => .num 0).checkpoint root
    globalepoch := globalepoch
    failedepoch := failedepoch
    clean := kinds
    committed := kinds
    saved := kinds
    recorded := []
    writes := []
    observed := []
    hazards := [] }

theorem kindAt_sample {nodes : List Sample} {root globalepoch failedepoch : Nat} {a : Addr}
    {k : Kind} (here : kindAt (sample nodes root globalepoch failedepoch) a = some k) :
    a < nodes.length + 1 ∧ ∃ n ∈ nodes, n.kind = k := by
  simp only [kindAt, sample, Sample.heap] at here
  split at here
  · cases here
  · simp only [Option.map_map, Option.map_eq_some_iff] at here
    obtain ⟨n, at_a, rfl⟩ := here
    obtain ⟨bound, -⟩ := List.getElem?_eq_some_iff.mp at_a
    exact ⟨Nat.lt_succ_of_le (Nat.le_of_pred_lt bound), n, List.mem_of_getElem? at_a, rfl⟩

theorem checkpointed_sample {nodes : List Sample} {root globalepoch failedepoch : Nat}
    (epochs : failedepoch < globalepoch) (old : nodes.all (·.old globalepoch) = true) :
    Checkpointed (sample nodes root globalepoch failedepoch) := by
  have fine {a : Addr} {k : Kind} (here : kindAt (sample nodes root globalepoch failedepoch) a =
      some k) : ∃ n : Sample, n.kind = k ∧ n.old globalepoch = true := by
    obtain ⟨-, n, member, kind⟩ := kindAt_sample here
    exact ⟨n, kind, List.all_eq_true.mp old n member⟩
  refine ⟨epochs, ?_, ?_, ?_, rfl, Nat.succ_pos _, rfl, rfl⟩
  · intro a l here
    obtain ⟨n, kind, old⟩ := fine here
    cases n with
    | internode height keys children parent => cases kind
    | leaf incll keys parent prev next =>
        cases kind
        simp only [Sample.old, Bool.and_eq_true, decide_eq_true_eq, Bool.not_eq_true',
          List.isPerm_iff] at old
        obtain ⟨⟨⟨⟨⟨epoch, cl1⟩, cl2⟩, short⟩, size⟩, slots⟩ := old
        exact ⟨epoch, tagged_of_invalid cl1 cl2,
          ⟨permValid_makeSorted short, bagValid_make .., fun _ none => nomatch none⟩,
          fun _ => ⟨size, slots⟩⟩
  · intro a i here
    obtain ⟨n, kind, old⟩ := fine here
    cases n with
    | leaf incll keys parent prev next => cases kind
    | internode height keys children parent =>
        cases kind
        simpa [Sample.old, sample] using old
  · intro a here
    obtain ⟨k, here⟩ := Option.isSome_iff_exists.mp here
    exact (kindAt_sample here).1

end Incll.Proof.Tree
