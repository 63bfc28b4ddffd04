import PsOs.Adder
import PsOs.AddressBook
import PsOs.AddressBookMemory
import PsOs.AddressBookRefinement
import PsOs.Barriers
import PsOs.Beehive
import PsOs.BeehiveAccounting
import PsOs.BeehiveAgreement
import PsOs.BeehiveArguments
import PsOs.BeehiveExplored
import PsOs.BeehiveField
import PsOs.BeehiveFrontier
import PsOs.BeehiveMoves
import PsOs.BeehiveNeighbours
import PsOs.BeehiveQueueAccess
import PsOs.BeehiveReports
import PsOs.BeehiveShutdown
import PsOs.BeehiveSummary
import PsOs.CStrings
import PsOs.Calculator
import PsOs.CalculatorExits
import PsOs.CatGrepCut
import PsOs.CharArrays
import PsOs.ChatAuthorization
import PsOs.ChatBuffer
import PsOs.ChatCancellation
import PsOs.ChatCapacity
import PsOs.ChatFinalLoop
import PsOs.ChatIdentity
import PsOs.ChatLogin
import PsOs.ChatMoves
import PsOs.ChatServer
import PsOs.ChatSession
import PsOs.ChatSlots
import PsOs.ChatTable
import PsOs.ClientInput
import PsOs.CommutingInvolutions
import PsOs.Comparators
import PsOs.CountedLoops
import PsOs.Decimals
import PsOs.DiceElimination
import PsOs.DiceGame
import PsOs.DiceInvariant
import PsOs.DiceLockstep
import PsOs.DiceOutcome
import PsOs.DicePreservation
import PsOs.DiceRounds
import PsOs.DiceTermination
import PsOs.DiningMeals
import PsOs.DiningPhilosophers
import PsOs.DonationClient
import PsOs.DonationSegmentation
import PsOs.DonationServer
import PsOs.FifoAccounting
import PsOs.FifoServer
import PsOs.FifoTermination
import PsOs.FloatingPoint
import PsOs.Grid
import PsOs.GridEdges
import PsOs.HttpDelivery
import PsOs.HttpDonations
import PsOs.HttpDrained
import PsOs.HttpLedger
import PsOs.HttpMoves
import PsOs.HttpRequestLine
import PsOs.HttpResponse
import PsOs.HttpServed
import PsOs.HttpServer
import PsOs.HttpShutdown
import PsOs.InputLoops
import PsOs.LibraryOne
import PsOs.Lines
import PsOs.LinkedLists
import PsOs.LockedObjects
import PsOs.MemoryTracker
import PsOs.MyQueue
import PsOs.MyQueueClients
import PsOs.MyQueueLocked
import PsOs.MyQueueTwoLocks
import PsOs.OrderedLocks
import PsOs.PipelineInvariant
import PsOs.PipelineProgress
import PsOs.Pipelines
import PsOs.PluginParity
import PsOs.Plugins
import PsOs.PriorityQueues
import PsOs.ProducerArrays
import PsOs.ProducerConservation
import PsOs.ProducerConsumer
import PsOs.ProducerInvariant
import PsOs.ProducerMoves
import PsOs.ProducerPreservation
import PsOs.ProducerTermination
import PsOs.ProducerWakeups
import PsOs.RingBuffer
import PsOs.RingBufferInvariant
import PsOs.RingBufferProgress
import PsOs.RingBufferRace
import PsOs.RingBufferSize
import PsOs.RingBufferWrap
import PsOs.Scheduler
import PsOs.SchedulerDrained
import PsOs.SchedulerMessages
import PsOs.SchedulerNumbers
import PsOs.SchedulerQueue
import PsOs.Segmentation
import PsOs.SharedCounter
import PsOs.SharedCounterRuns
import PsOs.StringShift
import PsOs.Strtod
import PsOs.StrtodGrammar
import PsOs.Strtok
import PsOs.Threads
import PsOs.TrackerMap
import PsOs.TrackerRefinement
import PsOs.TrackerVerdict
import PsOs.TransitionSystems
import PsOs.WorkQueues
