import Pedigree.Json.Reader
import Pedigree.Main
import Pedigree.Proofs.Layers
import Pedigree.Proofs.ReadDefinitions
import Pedigree.Proofs.Paths
import Pedigree.Proofs.OverlayNames
import Pedigree.Proofs.BaseChain
import Pedigree.Proofs.Expansion
import Pedigree.Proofs.ExpansionHistory
import Pedigree.Proofs.ReferenceErrors
import Pedigree.Proofs.ScopeResolution
import Pedigree.Proofs.OwnEntries
import Pedigree.Proofs.Overlays
import Pedigree.Proofs.ItemIndependence
import Pedigree.Proofs.EmittedBase
import Pedigree.Proofs.PropertyShape
import Pedigree.Proofs.PropertyLinks
import Pedigree.Proofs.PropertyExtension
import Pedigree.Proofs.Spellings
import Pedigree.Proofs.ObjectOrder
import Pedigree.Proofs.SourceOrder
import Pedigree.Proofs.Stages
import Pedigree.Proofs.PathSteps
import Pedigree.Proofs.TreeWalks
import Pedigree.Proofs.MadeDirectories
import Pedigree.Proofs.DefinitionFiles
import Pedigree.Proofs.Places
import Pedigree.Proofs.StagedFiles
import Pedigree.Proofs.Publishing
import Pedigree.Proofs.CommandAgreement
import Pedigree.Proofs.ShortestDecimals
import Pedigree.Proofs.NumberTexts
import Pedigree.Proofs.JsonTokens
import Pedigree.Proofs.JsonReading
import Pedigree.Proofs.CompiledDefinitions
import Pedigree.Proofs.EventLines
import Pedigree.Proofs.PrintedValues
import Pedigree.Proofs.LayerGrouping
import Pedigree.Proofs.BaseWalks
import Pedigree.Proofs.ByteOrder
import Pedigree.Proofs.SortedObjects
import Pedigree.Proofs.Rounding
import Pedigree.Proofs.IntegerOrders
import Pedigree.Proofs.TreeConversion
import Pedigree.Proofs.LoadedTrees
import Pedigree.Proofs.KeyTexts
import Pedigree.Proofs.Commits
import Pedigree.Proofs.RepeatedLayers
import Pedigree.Proofs.NestedCalls
import Pedigree.Proofs.EntryNames
import Pedigree.Proofs.ListedFiles
import Pedigree.Proofs.FileStems
import Pedigree.Proofs.LinkProgress
import Pedigree.Proofs.TextEdits
import Pedigree.Proofs.LineScan
import Pedigree.Proofs.StatementPlaces
import Pedigree.Proofs.BareKeys
import Pedigree.Proofs.WrittenKeys
import Pedigree.Proofs.ConfigurationWarnings
