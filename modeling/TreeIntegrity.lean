import TreeIntegrity.Graph
import TreeIntegrity.Shape
import TreeIntegrity.Clone
import TreeIntegrity.Repairable
import TreeIntegrity.Visitor
import TreeIntegrity.Visit
import TreeIntegrity.Ledger
import TreeIntegrity.Repair
import TreeIntegrity.Examine
import TreeIntegrity.Run
import TreeIntegrity.Builder
