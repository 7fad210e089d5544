import ApiManagement.TransactionRuns
import ApiManagement.KeyedTables
import ApiManagement.ParentLinkedRows
import ApiManagement.RowForests
import ApiManagement.Postconditions
import ApiManagement.PairedOutcomes
import ApiManagement.OrderedDictionaries
import ApiManagement.ConcatenatedNames
import ApiManagement.PythonRuntime
import ApiManagement.ServiceSchema
import ApiManagement.ApiStores
import ApiManagement.StoreCopies
import ApiManagement.UserOperations
import ApiManagement.ServiceOperations
import ApiManagement.ApiOperations
import ApiManagement.DraftWrites
import ApiManagement.OperationRuns
import ApiManagement.OperationEffects
import ApiManagement.StateInvariant
import ApiManagement.HiddenContents
import ApiManagement.IterationDeletion
import ApiManagement.IterationCopies
import ApiManagement.DraftIsolation
import ApiManagement.WriteRights
import ApiManagement.ParamForests
import ApiManagement.KeptContent
import ApiManagement.UniqueApis
import ApiManagement.CategoryIntegrity
import ApiManagement.ConcurrentRequests
import ApiManagement.OpenIterations
import ApiManagement.ReleaseRaces
import ApiManagement.ConcurrentIterations
import ApiManagement.CategoryMoves
import ApiManagement.VersionOrder
import ApiManagement.VersionFidelity
import ApiManagement.VersionListing
import ApiManagement.ParamEncoding
import ApiManagement.ParamRoundTrip
import ApiManagement.DraftEditor
import ApiManagement.OpenapiExport
import ApiManagement.ReadOperations
import ApiManagement.OutsiderReads
import ApiManagement.Confidentiality
import ApiManagement.FailureContract
import ApiManagement.SchemaReferences
import ApiManagement.CodeGenerator
import ApiManagement.InterfaceNames
import ApiManagement.CompleteForests
import ApiManagement.DraftCopies
import ApiManagement.CopiedNames
import ApiManagement.ResponseCodes
import ApiManagement.AskedParams
import ApiManagement.SilentFallbacks
import ApiManagement.PersistedEffects
import ApiManagement.LoginIdentifiers
import ApiManagement.ReleaseNotices
import ApiManagement.SharedNodes
import ApiManagement.ForestRebuild
import ApiManagement.MirroredSchemas
import ApiManagement.PythonNumerals
import ApiManagement.ExportedDefaults
import ApiManagement.InterfaceDeclarations
import ApiManagement.ScriptLexer
import ApiManagement.ScriptStrings
import ApiManagement.ScriptObjects
import ApiManagement.ServiceClass
import ApiManagement.WellFormedCode
import ApiManagement.InterfaceReader
import ApiManagement.EncodedInterfaces
import ApiManagement.TemplateHoles
import ApiManagement.GeneratedClient
import ApiManagement.PathSubstitution
import ApiManagement.RequestSlots
import ApiManagement.JsonShapes
import ApiManagement.ResponseTypes
import ApiManagement.FileSystem
import ApiManagement.FailingScripts
import ApiManagement.ServiceCommands
import ApiManagement.OwnOutput
import ApiManagement.GhostServices
import ApiManagement.CategoryUpdates
import ApiManagement.ApiListings
import ApiManagement.ParamTables
import ApiManagement.SubmittedParams
import ApiManagement.PagedLists
import ApiManagement.ServicePages
import ApiManagement.LikePatterns
import ApiManagement.UserSearch
import ApiManagement.Serialization
import ApiManagement.HiddenHashes
import ApiManagement.VersionedWorkspaces
import ApiManagement.ContainerContents
import ApiManagement.WorkspaceRefinement
import ApiManagement.OutsiderWrites
import ApiManagement.HttpRoutes
import ApiManagement.RouteRights
import ApiManagement.CategoryTrees
import ApiManagement.ServiceTabs
import ApiManagement.TabCoherence
import ApiManagement.CommandLine
import ApiManagement.IdentifierRoundTrip
import ApiManagement.CommandRuns
import ApiManagement.ReproducibleOutput
import ApiManagement.LoginSessions
import ApiManagement.SessionRights
import ApiManagement.ConcurrentIntegrity
import ApiManagement.UnorderedCode
import ApiManagement.DeliveredParams
import ApiManagement.DeliveredClients
import ApiManagement.WebSessions
import ApiManagement.TypedTables
import ApiManagement.ReopenedTables
