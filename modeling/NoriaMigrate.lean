import NoriaMigrate.Native.HashMap
import NoriaMigrate.Native.Graph
import NoriaMigrate.Native.Migration
import NoriaMigrate.Native.Commit
import NoriaMigrate.Spec.Builder
import NoriaMigrate.Spec.BuilderInvariant
import NoriaMigrate.Spec.ReaderGroups
import NoriaMigrate.Spec.UniverseId
import NoriaMigrate.Spec.SwapMerge
import NoriaMigrate.Spec.ColumnPropagation
import NoriaMigrate.Spec.CommitSteps
import NoriaMigrate.Spec.Controller
import NoriaMigrate.Spec.ControllerInvariant
import NoriaMigrate.Spec.CommitProgress
import NoriaMigrate.Spec.ParentRemap
import NoriaMigrate.Spec.IterationOrder
