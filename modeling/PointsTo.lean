import PointsTo.Main
import PointsTo.Solver.Alias
import PointsTo.Proofs.AliasQueries
import PointsTo.Proofs.AllocationSites
import PointsTo.Proofs.BaseTypes
import PointsTo.Proofs.CanonicalTypes
import PointsTo.Proofs.CloneRegistry
import PointsTo.Proofs.CollapsedMemory
import PointsTo.Proofs.Composition
import PointsTo.Proofs.Construction
import PointsTo.Proofs.DeclaredBases
import PointsTo.Proofs.DescriptorCodec
import PointsTo.Proofs.Expansion
import PointsTo.Proofs.FieldOffsets
import PointsTo.Proofs.FieldTypes
import PointsTo.Proofs.Filtering
import PointsTo.Proofs.FirstFields
import PointsTo.Proofs.Flattening
import PointsTo.Proofs.FlowContents
import PointsTo.Proofs.Loading
import PointsTo.Proofs.MachineRows
import PointsTo.Proofs.Monotonicity
import PointsTo.Proofs.NestedAggregates
import PointsTo.Proofs.OptionValues
import PointsTo.Proofs.OrderIndependence
import PointsTo.Proofs.Precision
import PointsTo.Proofs.QualifierChains
import PointsTo.Proofs.ReverseMap
import PointsTo.Proofs.Safety
import PointsTo.Proofs.SetRegisters
import PointsTo.Proofs.UntypedRefinement
import PointsTo.Proofs.Edges
