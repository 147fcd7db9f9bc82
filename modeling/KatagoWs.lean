import KatagoWs.Worker
import KatagoWs.Cluster.Session
import KatagoWs.Http.Stream
import KatagoWs.Http.Changes
import KatagoWs.Engine.Sgf
import KatagoWs.Engine.Katago
import KatagoWs.Lib.Round
import KatagoWs.Engine.Annotate
import KatagoWs.Engine.Perspective
import KatagoWs.Engine.Demux
import KatagoWs.Engine.Owner
import KatagoWs.Engine.Relaunch
import KatagoWs.Engine.Setup
import KatagoWs.Engine.Grids
import KatagoWs.Engine.TwoPass
import KatagoWs.Engine.Arrival
import KatagoWs.Announced
import KatagoWs.Attempts
import KatagoWs.Cluster.Backpressure
import KatagoWs.Cluster.Client
import KatagoWs.Cluster.Registry
import KatagoWs.Lib.Text
import KatagoWs.Engine.Autotune
import KatagoWs.Engine.Search
import KatagoWs.Lib.Tie
import KatagoWs.Engine.Thorough
import KatagoWs.Engine.Fast
import KatagoWs.Engine.Cache
import KatagoWs.Engine.Human
import KatagoWs.Http.Submit
import KatagoWs.Http.Paging
import KatagoWs.Engine.HumanPolicy
import KatagoWs.Engine.Losses
import KatagoWs.Engine.Refine
import KatagoWs.Engine.Priors
import KatagoWs.Engine.CacheFile
import KatagoWs.Lib.Fallible
import KatagoWs.Lib.Word
import KatagoWs.Engine.FastSpace
import KatagoWs.Engine.Budget
import KatagoWs.Engine.Feed
import KatagoWs.Lib.Simulation
import KatagoWs.Lib.Drive
import KatagoWs.Lib.Fields
import KatagoWs.Service
import KatagoWs.Recovery
import KatagoWs.Cluster.Message
import KatagoWs.Cluster.WorkerEnd
import KatagoWs.Cluster.Deployment
import KatagoWs.Engine.Exact
import KatagoWs.Engine.Caller
import KatagoWs.Engine.Lifecycle
import KatagoWs.Engine.Measure
import KatagoWs.Engine.Starts
import KatagoWs.Lib.Markup
import KatagoWs.Http.Dashboard
import KatagoWs.Http.Status
import KatagoWs.Lib.Lease
import KatagoWs.Lease
import KatagoWs.Engine.Pipes
