import OverGraph.FloatOrder

/-!
# Prune policies

A policy names nodes by age, weight and label, and a node matches it if it meets all the
bounds that are set. Readers hide the nodes that match a registered policy, and a
compaction drops them.
-/

namespace OverGraph.PrunePolicies
open Records FloatOrder

structure ResolvedPrunePolicy where
  maxAgeMs : Option ℤ
  maxWeight : Option F32
  labelId : Option ℕ

def matchesPruneCutoff (labelIds : NodeLabelSet) (updatedAt : ℤ) (weight : F32)
    (ageCutoff : Option ℤ) (maxWeight : Option F32) (policyLabelId : Option ℕ) : Bool :=
  policyLabelId.all (labelIds.contains ·) && ageCutoff.all (fun cutoff => !decide (cutoff ≤ updatedAt)) &&
    maxWeight.all (fun maxW => !floatGt weight maxW)

def matchesAnyPrunePolicyMeta (node : NodeRecord) (pols : List ResolvedPrunePolicy) (now : ℤ) : Bool :=
  pols.any fun policy => matchesPruneCutoff node.labelIds node.updatedAt node.weight
    (policy.maxAgeMs.map (now - ·)) policy.maxWeight policy.labelId

/-- The cutoffs of the registered policies at the time of a read. -/
structure PrecomputedPruneCutoffs where
  policies : List (Option ℤ × Option F32 × Option ℕ)

namespace PrecomputedPruneCutoffs

def excludesFields (cutoffs : PrecomputedPruneCutoffs) (labelIds : NodeLabelSet) (updatedAt : ℤ)
    (weight : F32) : Bool :=
  cutoffs.policies.any fun p => matchesPruneCutoff labelIds updatedAt weight p.1 p.2.1 p.2.2

def excludes (cutoffs : PrecomputedPruneCutoffs) (node : NodeRecord) : Bool :=
  cutoffs.excludesFields node.labelIds node.updatedAt node.weight

end PrecomputedPruneCutoffs

end OverGraph.PrunePolicies
