import ParseForest.Builder
import ParseForest.Forest.Growth
import ParseForest.Node.Field
import ParseForest.Node.Text
import ParseForest.Outline
import ParseForest.Packing
import ParseForest.Walk.Subtree
import ParseForest.Proofs.Ancestry
import ParseForest.Proofs.Fallible
import ParseForest.Proofs.Tree
import ParseForest.Proofs.Validity
import ParseForest.Proofs.Family
import ParseForest.Proofs.Links
import ParseForest.Proofs.Collecting
import ParseForest.Proofs.Adoption.Brood
import ParseForest.Proofs.Adoption
import ParseForest.Proofs.Compaction.Kept
import ParseForest.Proofs.Compaction
import ParseForest.Proofs.Packing
import ParseForest.Proofs.Walk
import ParseForest.Proofs.Walk.Linked
import ParseForest.Proofs.Walk.Chains
import ParseForest.Proofs.Walk.Below
import ParseForest.Proofs.Validity.Grounds
import ParseForest.Proofs.Validity.Looks
import ParseForest.Proofs.Outline.SlotText
import ParseForest.Proofs.Packing.Lineage
import ParseForest.Proofs.Collecting.Run
import ParseForest.Proofs.Packing.Cancellation
import ParseForest.Proofs.Packing.Spans
import ParseForest.Proofs.Packing.Text
import ParseForest.Proofs.Compaction.Stages
import ParseForest.Proofs.Compaction.Outside
import ParseForest.Proofs.Compaction.Searches
import ParseForest.Proofs.Packing.Independence
import ParseForest.Proofs.Walk.Preorder
import ParseForest.Proofs.Packing.DocumentOrder
import ParseForest.Proofs.Outline.Grove
import ParseForest.Proofs.Outline
import ParseForest.Proofs.Packing.Outline
import ParseForest.Proofs.Packing.OutlineSize
import ParseForest.Proofs.Builder
import ParseForest.Proofs.Packing.Again
import ParseForest.Proofs.Adoption.Nodes
import ParseForest.Proofs.Adoption.Visits
import ParseForest.Proofs.Packing.Events
import ParseForest.Proofs.Links.InOrder
import ParseForest.Proofs.Faults
import ParseForest.Proofs.Compaction.InPlace
import ParseForest.Proofs.Adoption.InPlace
import ParseForest.Proofs.Outline.InSteps
import ParseForest.Proofs.Packing.InPlace
