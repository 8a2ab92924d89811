import OpenApi.Main
import OpenApi.Proofs.Acyclicity
import OpenApi.Proofs.Encodings
import OpenApi.Proofs.Independence
import OpenApi.Proofs.Nullability
import OpenApi.Proofs.Ownership
import OpenApi.Schema.Handle
import OpenApi.Proofs.RequestParameters
import OpenApi.Proofs.Requiredness
import OpenApi.Proofs.ExtensionChains
import OpenApi.Proofs.NumericBounds
import OpenApi.Proofs.Deltas
import OpenApi.Proofs.ExtensionDeltas
import OpenApi.Proofs.Defaults
import OpenApi.Proofs.Discriminators
import OpenApi.Proofs.NullAlternatives
import OpenApi.Proofs.Grouping
import OpenApi.Proofs.SharpestBounds
import OpenApi.Proofs.Enumerations
import OpenApi.Proofs.Pipelines
import OpenApi.Proofs.Anonymity
import OpenApi.Proofs.PathItems
import OpenApi.Proofs.ComponentGroups
import OpenApi.Proofs.DefinitionTypes
import OpenApi.Proofs.DocumentFields
import OpenApi.Proofs.EmptyCompositions
import OpenApi.Proofs.MissingParameters
import OpenApi.Proofs.Survey
