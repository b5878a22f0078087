import Mathlib
import Missive.Proofs.Depth
import Missive.Proofs.Sample.Families

/-!
# Text round trips of plain sample messages

A plain message comes back from the text that is made of it, in either layout, as long as the
limit on the nesting is one that text allows. Beyond that there are nodes that are packed, but
into a text that is refused: a chain of nodes nests two containers with each of them
(`encodeAt_chain`), and one of 64 nodes is just too long.
-/

namespace Missive.Sample

open List (Forall₂)

variable {o : Options}

/-! ## Chains of nodes -/

/-- Where there is room for two levels, the machine word counts them without wrapping. -/
theorem two_levels {depth maxDepth : UInt32} (h : depth.toNat + 2 ≤ maxDepth.toNat) :
    depth < maxDepth ∧ depth + 1 < maxDepth ∧ (depth + 1 + 1).toNat = depth.toNat + 2 := by
  have hd : depth < maxDepth := UInt32.lt_iff_toNat_lt.2 (by omega)
  have hnext := Registry.toNat_next hd
  have hd' : depth + 1 < maxDepth := UInt32.lt_iff_toNat_lt.2 (by omega)
  exact ⟨hd, hd', by rw [Registry.toNat_next hd', hnext]⟩

/-- A node is encoded if its children are, two levels further down. -/
theorem encodeAt_treeNode {depth : UInt32} {label : String} {children : List TreeNode}
    {nodes : List Tree} (hd : depth < o.maxDepth) (hd' : depth + 1 < o.maxDepth)
    (h : Forall₂ (fun child t => ∀ p target, (sampleRegistry o).encodeAt p (depth + 1 + 1)
      (.message (Instance.treeNode child)) (.message target) = .ok t) children nodes)
    (p : Path) (target : TypeRef) :
    (sampleRegistry o).encodeAt p depth (.message (Instance.treeNode ⟨label, children⟩))
      (.message target) =
        .ok (.object [("label", .string label), ("children", .array nodes)]) := by
  rw [← sampleRegistry_options (o := o)] at hd hd'
  have hlabel : ∀ p, (sampleRegistry o).encodeAt p (depth + 1)
      (.leaf (.string label) : View Instance) .primitive = .ok (.string label) := by
    intro p
    rw [Registry.encodeAt]
    exact if_pos rfl
  have hchildren : ∀ p, (sampleRegistry o).encodeAt p (depth + 1)
      (toView children : View Instance) (arrayOf "TreeNode") = .ok (.array nodes) := fun p =>
    Registry.encodeAt_array hd' (List.forall₂_map_left_iff.2 (h.imp fun _ _ hn p => hn p _))
  rw [← Tree.ofMembers_of_nodup (by simp)]
  have hentry : (sampleRegistry o).entry (Kind.type .treeNode) = .ok (entryOf treeNode) :=
    sampleRegistry_entry rfl
  exact Registry.encodeAt_message hd (Registry.lookupFields_of_entry hentry)
    (.cons ⟨rfl, _, rfl, hlabel⟩ (.cons ⟨rfl, _, rfl, hchildren⟩ .nil))

/-- A chain of nodes nests two containers with each node. -/
theorem encodeAt_chain (n : Nat) {depth : UInt32}
    (h : depth.toNat + 2 * (n + 1) ≤ o.maxDepth.toNat) :
    ∃ t, t.nesting = 2 * (n + 1) ∧ ∀ p target, (sampleRegistry o).encodeAt p depth
      (.message (Instance.treeNode (TreeNode.chain (n + 1)))) (.message target) = .ok t := by
  induction n generalizing depth with
  | zero =>
    obtain ⟨hd, hd', _⟩ := two_levels h
    exact ⟨_, rfl, encodeAt_treeNode hd hd' .nil⟩
  | succ n ih =>
    have hroom : depth.toNat + 2 ≤ o.maxDepth.toNat := by omega
    obtain ⟨hd, hd', hnext⟩ := two_levels hroom
    have hrest : (depth + 1 + 1).toNat + 2 * (n + 1) ≤ o.maxDepth.toNat := by omega
    obtain ⟨t, hn, ht⟩ := ih hrest
    refine ⟨_, ?_, encodeAt_treeNode hd hd' (.cons ht .nil)⟩
    simp only [Tree.nesting, Tree.nestingOfMembers, Tree.nestingOfItems]
    omega

/-- Beyond what text allows, a chain is packed into a text that is refused. -/
theorem unpack_chain (h : maxTextDepth < o.maxDepth.toNat) (layout : Layout) :
    ∃ text, (sampleRegistry o).pack layout (Instance.treeNode (TreeNode.chain 64)) = .ok text ∧
      ((sampleRegistry o).unpack text : Except Error TreeNode) =
        .error (.malformedText .unexpected) := by
  -- 64 nodes nest 128 containers, one more than text allows.
  have hroom : (0 : UInt32).toNat + 2 * (63 + 1) ≤ o.maxDepth.toNat := h
  obtain ⟨t, hn, ht⟩ := encodeAt_chain 63 hroom
  have htree : (sampleRegistry o).toTree (Instance.treeNode (TreeNode.chain 64)) = .ok t := ht _ _
  have hplain : (Instance.treeNode (TreeNode.chain 64)).Plain := trivial
  have hexact := Registry.exact_of_toTree sampleRegistry_reachable.distinctFields covers_plain
    (fun _ h => h.exact) hplain htree
  refine ⟨_, Registry.pack_of_toTree layout htree, ?_⟩
  rw [Registry.unpack_text _ layout hexact.1, if_neg]
  rw [hn, maxTextDepth]
  decide

/-! ## Round trips -/

theorem textRoundTrips_of_plain {α : Type} [MessageClass Instance α]
    [LawfulMessageClass Instance α] {a : α} (h : o.maxDepth.toNat ≤ maxTextDepth)
    (ha : (MessageClass.wrap a : Instance).Plain)
    (htype : messageType (MessageClass.wrap a : Instance) = MessageClass.handle Instance α)
    (layout : Layout) : (sampleRegistry o).TextRoundTrips layout a := by
  rw [← sampleRegistry_options (o := o)] at h
  exact Registry.textRoundTrips_of_covers sampleRegistry_reachable.distinctFields covers_plain
    (fun _ h => h) h ha htype layout

/-- What is packed is unpacked to itself, in either layout, as long as the limit on the nesting is
    one that text allows; and no longer. -/
theorem text_round_trip (o : Options) (layout : Layout) :
    (o.maxDepth.toNat ≤ maxTextDepth →
      (∀ m : Bar, (sampleRegistry o).TextRoundTrips layout m) ∧
      (∀ m : Foo, (sampleRegistry o).TextRoundTrips layout m) ∧
      (∀ m : TreeNode, (sampleRegistry o).TextRoundTrips layout m) ∧
      (∀ m : Team, (sampleRegistry o).TextRoundTrips layout m) ∧
      (∀ m : Person, (sampleRegistry o).TextRoundTrips layout m) ∧
      (∀ m : Task, (sampleRegistry o).TextRoundTrips layout m)) ∧
    (maxTextDepth < o.maxDepth.toNat → ∃ (m : TreeNode) (text : String) (fault : TextFault),
      (sampleRegistry o).pack layout (Instance.treeNode m) = .ok text ∧
      ((sampleRegistry o).unpack text : Except Error TreeNode) =
        .error (.malformedText fault)) := by
  constructor
  · intro h
    refine ⟨?_, ?_, ?_, ?_, ?_, ?_⟩
    all_goals exact fun m => textRoundTrips_of_plain h (by trivial) rfl layout
  · intro h
    obtain ⟨text, hpack, hunpack⟩ := unpack_chain h layout
    exact ⟨_, text, _, hpack, hunpack⟩

/-- The text of the two rows of two messages. -/
def Foo.scenarioText : String :=
  "\x7b\"x\":null,\"bar\":[[\x7b\"y\":71\x7d,\x7b\"y\":72\x7d]," ++
    "[\x7b\"y\":41\x7d,\x7b\"y\":42\x7d]]\x7d"

/-- Two rows of messages go to a text and come back; with a limit of 128 there is a node that does
    not. -/
theorem text_round_trip_scenario :
    (sampleRegistry {}).pack .compact (Instance.foo Foo.scenario) = .ok Foo.scenarioText ∧
    (sampleRegistry {}).unpack Foo.scenarioText = .ok Foo.scenario ∧
    ∃ (m : TreeNode) (text : String) (fault : TextFault),
      (sampleRegistry { maxDepth := 128 }).pack .compact (Instance.treeNode m) = .ok text ∧
      ((sampleRegistry { maxDepth := 128 }).unpack text : Except Error TreeNode) =
        .error (.malformedText fault) := by
  have h : (sampleRegistry {}).pack .compact (Instance.foo Foo.scenario) =
      .ok Foo.scenarioText := by cbv
  have hfoo := ((text_round_trip {} .compact).1 (by decide)).2.1
  exact ⟨h, hfoo _ _ h, (text_round_trip { maxDepth := 128 } .compact).2 (by decide)⟩

end Missive.Sample
