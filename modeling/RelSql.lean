import RelSql.Command.Document
import RelSql.Expr.Equality
import RelSql.Proofs.Query.BoundVariables
import RelSql.Proofs.Query.ReportedColumns
import RelSql.Proofs.Modification.PredicateText
import RelSql.Proofs.Query.ScalarText
import RelSql.Proofs.Query.PrettyText
import RelSql.Proofs.Query.ScalarColumns
import RelSql.Proofs.Query.VariableCase
import RelSql.Proofs.Query.VariableOwners
import RelSql.Proofs.Query.SelectedNames
import RelSql.Proofs.Query.LeafGroups
import RelSql.Proofs.Query.StatementGraph
import RelSql.Proofs.Command.ModificationCommands
import RelSql.Proofs.Modification.KeyValues
import RelSql.Proofs.Query.InnerRows
import RelSql.Proofs.Data.Literals
import RelSql.Proofs.Data.DateOrder
import RelSql.Proofs.Data.StoreTypes
import RelSql.Proofs.Catalog.LastAdded
import RelSql.Proofs.Naming.Draws
