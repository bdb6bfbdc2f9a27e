import GoDatabase.Page.Bounds
import GoDatabase.Relational.DescriptorCodec
import GoDatabase.Relational.Durable
import GoDatabase.Relational.Equivalence
import GoDatabase.Relational.RowCodec
import GoDatabase.Sql.Positions
import GoDatabase.Sql.Printing
import GoDatabase.Sql.Session
import GoDatabase.Store.Serving
import GoDatabase.Structures.Cache
import GoDatabase.Structures.Equivalence
import GoDatabase.Tree.Split
